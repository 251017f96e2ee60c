/-
Moving, copying and removing items of the stack. Every operation acts on the top part and leaves what lies below it in
place. With the items listed top first, rolling up brings the last of the top part to the front, and rolling down
brings the first to its end.
-/
import ReversePolish.Stack.Basic

namespace ReversePolish.Stack

/-- the last element to the front -/
def lastToFront : List Value → List Value
  | [] => []
  | v :: rest => (v :: rest).getLastD v :: (v :: rest).dropLast

/-- the first element to the end -/
def firstToEnd : List Value → List Value
  | [] => []
  | v :: rest => rest ++ [v]

/-- changes the top n items -/
def onTop (n : Nat) (f : List Value → List Value) : StackM Unit :=
  modifyItems fun items => f (items.take n) ++ items.drop n

def swap : StackM Unit := do
  need 2
  onTop 2 List.reverse

def drop : StackM Unit := do
  let _ ← pop

def dropN (n : Nat) : StackM Unit := do
  need n
  modifyItems (·.drop n)

/-- copies the item at position n to the top -/
def pick (n : Nat) : StackM Unit := do
  push (← peek n)

def dup : StackM Unit := pick 1

def copySecond : StackM Unit := pick 2

/-- copies the top n items as a block -/
def dupN (n : Nat) : StackM Unit := do
  need n
  room n
  modifyItems fun items => items.take n ++ items

/-- removes the item at position n -/
def nipN (n : Nat) : StackM Value := do
  let v ← peek n
  modifyItems (·.eraseIdx (n - 1))
  pure v

/-- the deepest of the top n items moves to the top -/
def rollUpN (n : Nat) : StackM Unit := do
  need n
  onTop n lastToFront

/-- the top item moves to position n -/
def rollDownN (n : Nat) : StackM Unit := do
  need n
  onTop n firstToEnd

/-- the bottom item moves to the top -/
def rollUp : StackM Unit := do rollUpN (← get).depth

/-- the top item moves to the bottom -/
def rollDown : StackM Unit := do rollDownN (← get).depth

def rotateUp : StackM Unit := rollUpN 3

def rotateDown : StackM Unit := rollDownN 3

/-- puts a copy of the top item just below position n -/
def tuckN (n : Nat) : StackM Unit := do
  position n
  room 1
  onTop n fun items => items ++ items.take 1

/-- reverses the top n items -/
def reverseN (n : Nat) : StackM Unit := do
  need n
  onTop n List.reverse

def reverse : StackM Unit := modifyItems List.reverse

def clear : StackM Unit := modifyItems fun _ => []

/-- replaces the item at position n -/
def replace (n : Nat) (v : Value) : StackM Unit := do
  position n
  modifyItems (·.set (n - 1) v)

end ReversePolish.Stack
