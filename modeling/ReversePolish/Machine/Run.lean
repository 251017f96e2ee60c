/-
Running bodies and lines.

A compiled word runs in scopes of its own, so it never sees the locals of its caller, and at most `maxCallDepth` of them
run inside one another. A loop runs its items once for each count from its lower bound up to below its upper one, with
the count bound to its variable; every pass moves the counter up in the order of the doubles, so there are finitely
many.

Items of a body and passes of a loop are bounded by the body and its bounds. What a word asks for while it runs is not,
so requests are answered down to a set nesting: `answerUpTo n` answers a request with words that may ask n - 1 deep. A
machine allows as much nesting as its calls may need and a reserve for the words of a host, so large that only words
that evaluate one another without end use it up.
-/
import ReversePolish.Machine.Step
import ReversePolish.Number.Rank

namespace ReversePolish

/-! ## Loops -/

/-- one pass after another until the count reaches the upper bound, or cannot move up any more -/
def passes (ident : String) (run : MachineM Unit) (stop count : Float) (m : Machine) :
    EStateM.Result Fault Machine Unit :=
  if _hc : count < stop then
    match run (m.bindLocal ident (.double count)) with
    | .error f m' => .error f m'
    | .ok _ m' =>
      if _hn : count < count + 1.0 then passes ident run stop (count + 1.0) m'
      else .error (.stuckCounter count) m'
  else .ok () m
termination_by (Double.rank stop - Double.rank count).toNat
decreasing_by
  have hstop := Double.rank_lt_of_lt _hc
  have hnext := Double.rank_lt_of_lt _hn
  omega

/-- the bounds of a loop, upper one on top: two finite numbers -/
def popBounds : Effect (Float × Float) := do
  let s ← get
  if s.depth < 2 then throw (.stack (.underflow 2 s.depth))
  let stop ← Stack.peek 1
  let start ← Stack.peek 2
  if !(stop.isNumber && start.isNumber) then throw (.noMatch "FOR")
  if !(stop.asDouble.isFinite && start.asDouble.isFinite) then throw (.noMatch "FOR")
  Stack.dropN 2
  return (start.asDouble, stop.asDouble)

/-- the result of the passes of a loop, with the scope of the loop closed -/
def unscoped (r : EStateM.Result Fault Machine Unit) : EStateM.Result Fault Machine Unit :=
  r.mapState fun _ m => { m with scopes := m.scopes.tail }

/-- runs the items of a loop in a scope inside the present ones -/
def inLoop (b : Body) (run : MachineM Unit) : MachineM Unit := do
  let (start, stop) ← popBounds
  modify fun m => { m with scopes := b.locals :: m.scopes }
  fun m => unscoped (passes b.ident run stop start m)

/-! ## Calls -/

/-- the result of a call, back in the scopes of the caller -/
def returned (scopes : List (List (String × Value))) (r : EStateM.Result Fault Machine Unit) :
    EStateM.Result Fault Machine Unit :=
  r.mapState fun _ m => { m with callDepth := m.callDepth - 1, scopes }

/-- runs the items of a compiled word in scopes of its own, one call deeper -/
def inCall (b : Body) (run : MachineM Unit) : MachineM Unit := fun m =>
  if m.maxCallDepth ≤ m.callDepth then .error (.callDepth b.ident m.maxCallDepth) m
  else returned m.scopes (run { m with callDepth := m.callDepth + 1, scopes := [b.locals] })

/-! ## Bodies -/

/-- runs the items of a body according to its kind -/
def inBody (b : Body) (run : MachineM Unit) : MachineM Unit :=
  match b.kind with
  | .word => inCall b run
  | .loop => inLoop b run

/-- a word of a body: a local of that name is pushed, anything else is evaluated with nothing to read after it -/
def runItemWord (answer : Answer) (word : String) : MachineM Unit := do
  match (← get).findLocal? word with
  | some v => Machine.push v
  | none => Machine.withInput [] (evalWord answer word)

/-- a text in a body is evaluated as if it stood in a line -/
def runItemString (answer : Answer) (text : String) : MachineM Unit :=
  Machine.withInput (text.toList ++ ['"']) (evalWord answer stringWord)

/-- how the parts of a body are run, in any monad that can fail -/
structure Runner (M : Type → Type) where
  word : String → M Unit
  text : String → M Unit
  /-- a body, given what its items do -/
  body : Body → M Unit → M Unit

namespace Runner

variable {M : Type → Type} [Monad M] [MonadExceptOf Fault M]

mutual

def runBody (r : Runner M) : Body → M Unit
  | ⟨kind, ident, items, locals⟩ => r.body ⟨kind, ident, items, locals⟩ (runItems r items)

/-- runs items one after the other -/
def runItems (r : Runner M) : List Item → M Unit
  | [] => pure ()
  | .block b :: rest => do
    runBody r b
    runItems r rest
  | .word word :: rest =>
    if word = stringWord then
      match rest with
      | .word text :: rest => do
        r.text text
        runItems r rest
      | _ => throw .missingLiteral
    else do
      r.word word
      runItems r rest

end

def evaluating (answer : Answer) : Runner MachineM where
  word := runItemWord answer
  text := runItemString answer
  body := inBody

end Runner

def runBody (answer : Answer) : Body → MachineM Unit := (Runner.evaluating answer).runBody

def runItems (answer : Answer) : List Item → MachineM Unit := (Runner.evaluating answer).runItems

/-! ## Lines -/

/-- evaluates the words of the line one after the other, at most n of them -/
def evalWords (answer : Answer) : Nat → MachineM Unit
  | 0 => pure ()
  | n + 1 => do
    let word ← Machine.nextWord
    if word.isEmpty then pure ()
    else do
      evalWord answer word
      evalWords answer n

/-- the result of a line, which reports a fault -/
def reported (r : EStateM.Result Fault Machine Unit) : EStateM.Result Fault Machine Unit :=
  r.mapState fun fault m => fault.elim m fun f => m.record (.failed m.status f.message)

/-- evaluates a line up to its first failing word; a line of n characters has at most n words -/
def evalLine (answer : Answer) (line : List Char) : MachineM Unit :=
  Machine.withInput line fun m => reported (evalWords answer line.length m)

/-! ## Nesting -/

/-- answers requests that nest at most n deep -/
def answerUpTo : Nat → Answer
  | 0, _ => throw .nesting
  | n + 1, .body b => runBody (answerUpTo n) b
  | n + 1, .line text => evalLine (answerUpTo n) text

/-- nesting in reserve for the words of a host, which are not counted as calls: 2^32, more than a run that comes to an
end can hold at one time -/
def hostReserve : Nat := 0x100000000

namespace Machine

/-- the nesting that a machine allows -/
def allowance (m : Machine) : Nat := m.maxCallDepth + hostReserve

/-- evaluates a line -/
def eval (line : String) : MachineM Unit := fun m => evalLine (answerUpTo m.allowance) line.toList m

/-- evaluates a word with a given rest of the line, and says what it leaves of that rest -/
def evalOne (word rest : String) (m : Machine) : EStateM.Result Fault Machine Unit × String :=
  match evalWord (answerUpTo m.allowance) word { m with input := rest.toList } with
  | .ok _ m' => (.ok () { m' with input := m.input }, String.ofList m'.input)
  | .error f m' => (.error f { m' with input := m.input }, String.ofList m'.input)

/-- runs a body -/
def run (b : Body) : MachineM Unit := fun m => runBody (answerUpTo m.allowance) b m

/-- calls a body as a compiled word, whatever its kind -/
def call (b : Body) : MachineM Unit := fun m => inCall b (runItems (answerUpTo m.allowance) b.items) m

end Machine

end ReversePolish
