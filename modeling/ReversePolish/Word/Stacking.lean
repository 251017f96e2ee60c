/-
Words that rearrange the stack: those of a fixed shape, and those that take a count from the top. A counted word whose
operation fails puts its count back before it fails.
-/
import ReversePolish.Stack.Shuffle
import ReversePolish.Word.Effect
import ReversePolish.Word.Validator

namespace ReversePolish

inductive StackWord where
  | drop
  | clear
  | depth
  | swap
  | rollUp
  | rollDown
  | copySecond
  | dup
  | rotateUp
  | rotateDown
  | reverse
deriving DecidableEq

namespace StackWord

def operation : StackWord → StackM Unit
  | .drop => Stack.drop
  | .clear => Stack.clear
  | .depth => do Stack.push (Effect.count (← get).depth)
  | .swap => Stack.swap
  | .rollUp => Stack.rollUp
  | .rollDown => Stack.rollDown
  | .copySecond => Stack.copySecond
  | .dup => Stack.dup
  | .rotateUp => Stack.rotateUp
  | .rotateDown => Stack.rotateDown
  | .reverse => Stack.reverse

def run (w : StackWord) : Effect Unit := Effect.ofStack w.operation

def entries : List (Entry StackWord) :=
  [⟨"DROP", .depth 1, .drop⟩, ⟨"CLEAR", .depth 0, .clear⟩, ⟨"DEPTH", .depth 0, .depth⟩, ⟨"SWAP", .depth 2, .swap⟩,
    ⟨"ROLLU", .depth 0, .rollUp⟩, ⟨"ROLLD", .depth 0, .rollDown⟩, ⟨"OVER", .depth 2, .copySecond⟩,
    ⟨"DUP", .depth 1, .dup⟩, ⟨"ROTU", .depth 3, .rotateUp⟩, ⟨"ROTD", .depth 3, .rotateDown⟩,
    ⟨"REVERSE", .depth 0, .reverse⟩]

end StackWord

inductive CountedWord where
  | dropN
  | dupN
  | nipN
  | pick
  | rollDownN
  | rollUpN
  | tuckN
  | reverseN
deriving DecidableEq

namespace CountedWord

def operation (n : Nat) : CountedWord → StackM Unit
  | .dropN => Stack.dropN n
  | .dupN => Stack.dupN n
  | .nipN => do let _ ← Stack.nipN n
  | .pick => Stack.pick n
  | .rollDownN => Stack.rollDownN n
  | .rollUpN => Stack.rollUpN n
  | .tuckN => Stack.tuckN n
  | .reverseN => Stack.reverseN n

/-- an operation that, when it fails, gives the count back; the fault is then that of the operation, unless there is no
room for the count -/
def orGiveBack (n : Int64) (operation : StackM Unit) : Effect Unit := fun s =>
  match operation s with
  | .ok _ s' => .ok () s'
  | .error e s' =>
    match Stack.push (.integer n) s' with
    | .ok _ s'' => .error (.stack e) s''
    | .error e' s'' => .error (.stack e') s''

def run (w : CountedWord) : Effect Unit := do
  let (n, count) ← Effect.popCount
  orGiveBack n (w.operation count)

def entries : List (Entry CountedWord) :=
  [⟨"DROPN", .countOnTop, .dropN⟩, ⟨"DUPN", .countOnTop, .dupN⟩, ⟨"NIPN", .countOnTop, .nipN⟩,
    ⟨"PICK", .countOnTop, .pick⟩, ⟨"ROLLDN", .countOnTop, .rollDownN⟩, ⟨"ROLLUN", .countOnTop, .rollUpN⟩,
    ⟨"TUCKN", .countOnTop, .tuckN⟩, ⟨"REVERSEN", .countOnTop, .reverseN⟩]

end CountedWord

end ReversePolish
