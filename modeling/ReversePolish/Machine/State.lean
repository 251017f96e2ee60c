/-
The machine that evaluates words: the data stack, the dictionary, the bodies under construction, the scopes of running
bodies, and the rest of the line that is being read.

A step of the machine ends with a result or with a fault, and in both cases with a machine: a failing word leaves what
it did before it failed.
-/
import ReversePolish.Compilation
import ReversePolish.Dictionary
import ReversePolish.Machine.Event
import ReversePolish.Random
import ReversePolish.Token

/-- the result in a changed state; the change may depend on the error -/
def EStateM.Result.mapState {ε σ α : Type} (f : Option ε → σ → σ) : Result ε σ α → Result ε σ α
  | .ok a s => .ok a (f none s)
  | .error e s => .error e (f (some e) s)

namespace ReversePolish

/-- the nesting of calls that a machine allows unless it is told otherwise -/
def defaultCallDepth : Nat := 256

structure Machine where
  stack : Stack := {}
  dictionary : Dictionary := {}
  compilation : Compilation := {}
  /-- values bound by the running bodies, innermost first -/
  scopes : List (List (String × Value)) := []
  /-- what is left of the line -/
  input : List Char := []
  tracing : Bool := false
  /-- outcome of the last word -/
  status : String := ""
  /-- how many compiled words are running inside one another -/
  callDepth : Nat := 0
  maxCallDepth : Nat := defaultCallDepth
  /-- state of the random generator -/
  seed : Int64 := Random.defaultSeed
  /-- newest first -/
  log : List Event := []

/-- steps of the machine -/
abbrev MachineM := EStateM Fault Machine

/-- an effect on the data stack as a step of the machine -/
def MachineM.ofEffect {α : Type} (x : Effect α) : MachineM α := fun m =>
  match x m.stack with
  | .ok a s => .ok a { m with stack := s }
  | .error f s => .error f { m with stack := s }

/-- the result of a step on another line, back on this one -/
def onLine (input : List Char) (r : EStateM.Result Fault Machine Unit) : EStateM.Result Fault Machine Unit :=
  r.mapState fun _ m => { m with input }

instance : MonadLift Effect MachineM := ⟨MachineM.ofEffect⟩

namespace Machine

def isCompiling (m : Machine) : Bool := m.compilation.isActive

/-- the value of the innermost local of a name -/
def findLocal? (m : Machine) (name : String) : Option Value := m.scopes.findSome? (Keyed.find? name)

def record (m : Machine) (e : Event) : Machine := { m with log := e :: m.log }

/-- records an event while tracing -/
def traced (m : Machine) (e : Event) : Machine := if m.tracing then m.record e else m

/-- the events from the oldest on -/
def events (m : Machine) : List Event := m.log.reverse

/-- binds a name in the innermost scope -/
def bindLocal (m : Machine) (name : String) (v : Value) : Machine :=
  match m.scopes with
  | [] => m
  | scope :: outer => { m with scopes := Keyed.insert name v scope :: outer }

def mapCompilation (m : Machine) (f : Compilation → Compilation) : Machine :=
  { m with compilation := f m.compilation }

/-- pushes a value on the data stack -/
def push (v : Value) : MachineM Unit := MachineM.ofEffect (Effect.ofStack (Stack.push v))

/-- runs a step on another line and returns to the rest of this one -/
def withInput (text : List Char) (step : MachineM Unit) : MachineM Unit := fun m =>
  onLine m.input (step { m with input := text })

/-- takes the line up to a delimiter, or fails with the given fault -/
def takeUntil (delimiter : Char) (missing : Fault) : MachineM String := fun m =>
  match Token.takeUntil delimiter m.input with
  | some (taken, rest) => .ok (String.ofList taken) { m with input := rest }
  | none => .error missing m

/-- takes the next word of the line; it is empty at the end of the line -/
def nextWord : MachineM String := fun m =>
  let (word, rest) := Token.next m.input
  .ok (String.ofList word) { m with input := rest }

def skipComment : MachineM Unit := do
  let _ ← takeUntil ')' .unterminatedComment

def takeString : MachineM String := takeUntil '"' .unterminatedString

end Machine

end ReversePolish
