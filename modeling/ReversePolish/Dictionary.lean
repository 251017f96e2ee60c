/-
The dictionary: under each name a list of definitions, in the order of their registration. The definition that applies
is the first one that accepts the stack. A name without definitions is not in the dictionary.
-/
import ReversePolish.Word.Definition

namespace ReversePolish

structure Dictionary where
  words : List (String × List Definition) := []

namespace Dictionary

/-- the definitions of a name, oldest first -/
def definitions (d : Dictionary) (name : String) : List Definition := (Keyed.find? name d.words).getD []

def contains (d : Dictionary) (name : String) : Bool := Keyed.contains name d.words

/-- the names, in increasing order -/
def names (d : Dictionary) : List String := Keyed.names d.words

/-- how many names there are -/
def size (d : Dictionary) : Nat := d.words.length

/-- adds a definition behind those that a name has; the empty name is refused -/
def register (d : Dictionary) (name : String) (definition : Definition) : Bool × Dictionary :=
  if name.isEmpty then (false, d)
  else (true, ⟨Keyed.insert name (d.definitions name ++ [definition]) d.words⟩)

/-- drops a name; was it there? -/
def remove (d : Dictionary) (name : String) : Bool × Dictionary :=
  (d.contains name, ⟨Keyed.erase name d.words⟩)

/-- drops the compiled definitions of a name, and the name if it has no others -/
def removeCompiled (d : Dictionary) (name : String) : Dictionary :=
  if d.contains name then
    match (d.definitions name).filter (!·.isCompiled) with
    | [] => ⟨Keyed.erase name d.words⟩
    | kept => ⟨Keyed.insert name kept d.words⟩
  else d

/-- the first definition of a name that accepts the stack -/
def lookup (d : Dictionary) (name : String) (s : Stack) : Option Definition :=
  (d.definitions name).find? (·.validator.accepts s)

/-- installs a captured body under its name, in place of an earlier one -/
def install (d : Dictionary) (b : Body) : Dictionary :=
  ((d.removeCompiled b.ident).register b.ident (.ofBody b)).2

end Dictionary

end ReversePolish
