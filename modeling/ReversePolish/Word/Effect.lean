/-
Effects of words that act on the data stack alone. A failing operation of the stack is a fault of the word.
-/
import ReversePolish.Fault

namespace ReversePolish

/-- a step on the data stack that may fail with a fault -/
abbrev Effect := EStateM Fault Stack

/-- an operation of the stack as the effect of a word -/
def Effect.ofStack {α : Type} (x : StackM α) : Effect α := fun s =>
  match x s with
  | .ok a s' => .ok a s'
  | .error e s' => .error (.stack e) s'

instance : MonadLift StackM Effect := ⟨Effect.ofStack⟩

namespace Effect

/-- the item below the top, and the top -/
def popPair : Effect (Value × Value) := do
  let b ← Stack.pop
  let a ← Stack.pop
  return (a, b)

/-- a count taken from the stack -/
def popCount : Effect (Int64 × Nat) := do
  let n ← Stack.popInteger
  if n < 0 then throw (.badCount n)
  return (n, n.toInt.toNat)

/-- pushes values one after the other -/
def pushAll : List Value → Effect Unit
  | [] => pure ()
  | v :: rest => do
    Stack.push v
    pushAll rest

/-- how many, as a value -/
def count (n : Nat) : Value := .integer (Int64.ofNat n)

end Effect

end ReversePolish
