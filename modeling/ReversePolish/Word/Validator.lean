/-
When a definition of a word applies: by the kinds of the top items, by the depth of the stack, or by a count on top with
that many items below it.
-/
import ReversePolish.Stack.Basic

namespace ReversePolish

/-- what an operand may be -/
inductive Slot where
  | any
  | kind (k : Kind)
deriving DecidableEq

def Slot.accepts : Slot → Kind → Bool
  | .any, _ => true
  | .kind k, k' => k == k'

inductive Validator where
  /-- the top items are of these kinds, top first -/
  | kinds (slots : List Slot)
  /-- there are at least so many items -/
  | depth (n : Nat)
  /-- the top is an integer n of at least zero and there are at least n items below it -/
  | countOnTop
deriving DecidableEq

namespace Validator

/-- there is an item for every slot, and the slot accepts its kind -/
def fits : List Slot → List Value → Bool
  | [], _ => true
  | _ :: _, [] => false
  | slot :: slots, v :: rest => slot.accepts v.kind && fits slots rest

def accepts : Validator → Stack → Bool
  | .kinds slots, s => fits slots s.items
  | .depth n, s => decide (n ≤ s.depth)
  | .countOnTop, s =>
    match s.items with
    | .integer n :: below => decide (0 ≤ n.toInt ∧ n.toInt.toNat ≤ below.length)
    | _ => false

/-- the top items are of these kinds, top first -/
def ofKinds (kinds : List Kind) : Validator := .kinds (kinds.map Slot.kind)

end Validator

/-- a name, when it applies, and the word it stands for -/
structure Entry (α : Type) where
  name : String
  validator : Validator
  word : α

/-- the two kinds of numbers -/
def Kind.numbers : List Kind := [.integer, .double]

end ReversePolish
