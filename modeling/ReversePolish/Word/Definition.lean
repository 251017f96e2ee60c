/-
Definitions of words: when a definition applies, what it does, and the state it owns.

Actions are data. A structural word works on the machine, an operator on the data stack, a compiled word runs the body
in its context, and a word registered by a host runs a script of steps.
-/
import ReversePolish.Word.Operator

namespace ReversePolish

/-- state that an extension owns: the random generator of the machine, or a text of a host -/
inductive Extension where
  | generator
  | text (s : String)

/-- the state that a definition owns -/
inductive Context where
  | none
  /-- the machine itself -/
  | owner
  /-- the captured body of a compiled word -/
  | body (b : Body)
  | extension (e : Extension)

namespace Context

def text : Context → String
  | .none => "None"
  | .owner => "Owner"
  | .body b => "Body(" ++ b.text ++ ")"
  | .extension _ => "Extension(..)"

def body? : Context → Option Body
  | .body b => some b
  | _ => Option.none

/-- the text of a host's extension -/
def extensionText? : Context → Option String
  | .extension (.text s) => some s
  | _ => Option.none

end Context

/-- the structural words, as they run outside a compilation -/
inductive CoreWord where
  | define
  | comment
  | string
  | loop
  | trace
  | boolean (b : Bool)
  | strayEnd
  | strayNext
deriving DecidableEq

/-- the words of the random generator -/
inductive RandomWord where
  | integer
  | unit
  | seed
deriving DecidableEq

/-- one step of a host's word -/
inductive HostStep where
  | push (v : Value)
  | drop
  /-- takes the rest of the line as a text -/
  | rest
  /-- takes the next word of the line as a text -/
  | word
  /-- the value of a local, or the text `<none>` -/
  | lookup (name : String)
  | eval (line : String)
  /-- runs the body in the context -/
  | call
  /-- the text of the context -/
  | context
  /-- the text of the extension, or the text `<none>` -/
  | extension
  /-- is the extension a bare integer? None is. -/
  | extensionIsInteger
  | fail (fault : Fault)

inductive Action where
  | core (w : CoreWord)
  | operator (o : Operator)
  | random (w : RandomWord)
  | showStack
  | compiled
  | script (steps : List HostStep)

structure Definition where
  validator : Validator
  action : Action
  context : Context := .none

namespace Definition

/-- does the definition hold a captured body? -/
def isCompiled (d : Definition) : Bool := d.context.body?.isSome

/-- the definition of a word with a captured body, which applies to every stack -/
def ofBody (b : Body) : Definition := ⟨.depth 0, .compiled, .body b⟩

end Definition

/-! ## Descriptions -/

def Kind.label : Kind → String
  | .boolean => "Boolean"
  | .integer => "Integer"
  | .double => "Double"
  | .string => "String"
  | .vec3 => "Vec3"
  | .fraction => "Fraction"
  | .timecode => "Timecode"
  | .list => "List"
  | .map => "Map"
  | .body => "Body"

def Slot.label : Slot → String
  | .any => "Any"
  | .kind k => k.label

def Validator.text : Validator → String
  | .kinds slots => "Kinds([" ++ ", ".intercalate (slots.map Slot.label) ++ "])"
  | .depth n => "Depth(" ++ Decimal.integer n ++ ")"
  | .countOnTop => "CountOnTop"

def Definition.text (d : Definition) : String :=
  "WordDefinition \x7b validator: " ++ d.validator.text ++ ", context: " ++ d.context.text ++ ", .. \x7d"

end ReversePolish
