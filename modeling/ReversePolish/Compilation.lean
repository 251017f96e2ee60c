/-
Bodies under construction. The open bodies are listed innermost first; the innermost one waits for its name, and then
collects items until it is closed.
-/
import ReversePolish.Value.Basic

namespace ReversePolish

structure Compilation where
  /-- innermost first -/
  frames : List Body := []

namespace Compilation

def isActive (c : Compilation) : Bool := !c.frames.isEmpty

def depth (c : Compilation) : Nat := c.frames.length

/-- opens a body inside the others -/
def start (c : Compilation) (kind : BodyKind) : Compilation := ⟨Body.empty kind :: c.frames⟩

/-- closes the innermost body -/
def close (c : Compilation) : Option (Body × Compilation) :=
  match c.frames with
  | [] => none
  | b :: rest => some (b, ⟨rest⟩)

def innermost? (c : Compilation) : Option BodyKind := c.frames.head?.map Body.kind

/-- does the innermost body wait for its name? -/
def needsIdent (c : Compilation) : Bool :=
  match c.frames with
  | [] => false
  | b :: _ => b.ident.isEmpty

/-- does an open body give the name a meaning? A body under construction knows its own name, so it can call itself. -/
def isLocal (c : Compilation) (name : String) : Bool := c.frames.any (·.binds name)

/-- changes the innermost body -/
def onInnermost (c : Compilation) (f : Body → Body) : Compilation :=
  match c.frames with
  | [] => c
  | b :: rest => ⟨f b :: rest⟩

def setIdent (c : Compilation) (name : String) : Compilation := c.onInnermost ({ · with ident := name })

def append (c : Compilation) (item : Item) : Compilation := c.onInnermost (·.push item)

/-- binds a value in the innermost body -/
def bind (c : Compilation) (name : String) (v : Value) : Compilation :=
  c.onInnermost fun b => { b with locals := Keyed.insert name v b.locals }

/-- gives up every open body -/
def unwind (_ : Compilation) : Compilation := {}

end Compilation

end ReversePolish
