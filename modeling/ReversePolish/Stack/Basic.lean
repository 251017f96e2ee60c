/-
The data stack. Positions count from the top, which is position 1, and the items are listed top first. A stack may have
a limit on its depth.

An operation is a step on the stack that ends with a result or with an error, and in both cases with a stack. Operations
check the position, then the depth, then the room, and only then change the stack.
-/
import ReversePolish.Value.Printer

namespace ReversePolish

inductive StackError where
  /-- more items were needed than there are -/
  | underflow (needed depth : Nat)
  /-- position zero, which addresses no item -/
  | zeroIndex
  /-- the stack would grow over its limit -/
  | overflow (limit : Nat)
  /-- the item is of another kind than asked for -/
  | typeMismatch (expected found : Kind)
deriving DecidableEq

def StackError.message : StackError → String
  | .underflow needed depth =>
    "stack underflow (needed " ++ Decimal.integer needed ++ ", depth " ++ Decimal.integer depth ++ ")"
  | .zeroIndex => "invalid stack index: 0"
  | .overflow limit => "stack overflow (max " ++ Decimal.integer limit ++ ")"
  | .typeMismatch expected found => "type mismatch: expected " ++ expected.name ++ ", found " ++ found.name

structure Stack where
  /-- top first -/
  items : List Value := []
  limit : Option Nat := none

/-- operations on the stack -/
abbrev StackM := EStateM StackError Stack

namespace Stack

def depth (s : Stack) : Nat := s.items.length

/-- the items from the bottom up -/
def bottomUp (s : Stack) : List Value := s.items.reverse

/-- the kinds of the items, top first -/
def kinds (s : Stack) : List Kind := s.items.map Value.kind

/-! ## Checks -/

/-- there are at least n items -/
def need (n : Nat) : StackM Unit := do
  let s ← get
  if s.depth < n then throw (.underflow n s.depth)

/-- n more items fit -/
def room (n : Nat) : StackM Unit := do
  let s ← get
  match s.limit with
  | none => pure ()
  | some limit => if limit < s.depth + n then throw (.overflow limit)

/-- a position is not zero and there are that many items -/
def position (n : Nat) : StackM Unit := do
  if n = 0 then throw .zeroIndex
  need n

/-- changes the items -/
def modifyItems (f : List Value → List Value) : StackM Unit :=
  modify fun s => { s with items := f s.items }

/-! ## Push, pop and peek -/

def push (v : Value) : StackM Unit := do
  room 1
  modifyItems (v :: ·)

def top : StackM Value := do
  match (← get).items with
  | [] => throw (.underflow 1 0)
  | v :: _ => pure v

def pop : StackM Value := do
  let v ← top
  modifyItems List.tail
  pure v

/-- removes the top n items and gives them from the bottom up -/
def popN (n : Nat) : StackM (List Value) := do
  need n
  let s ← get
  modifyItems (·.drop n)
  pure (s.items.take n).reverse

/-- the item at position n -/
def peek (n : Nat) : StackM Value := do
  if n = 0 then throw .zeroIndex
  let s ← get
  match s.items[n - 1]? with
  | some v => pure v
  | none => throw (.underflow n s.depth)

/-- what a view makes of an item, or a mismatch with the kind it stands for -/
def viewed {α : Type} (kind : Kind) (view : Value → Option α) (v : Value) : StackM α :=
  match view v with
  | some a => pure a
  | none => throw (.typeMismatch kind v.kind)

/-- pops the top if the view accepts it -/
def popWith {α : Type} (kind : Kind) (view : Value → Option α) : StackM α := do
  let a ← viewed kind view (← top)
  modifyItems List.tail
  pure a

/-- the item at position n if the view accepts it -/
def peekWith {α : Type} (kind : Kind) (view : Value → Option α) (n : Nat) : StackM α := do
  viewed kind view (← peek n)

/-! ## Views of single kinds -/

def ofKind? (kind : Kind) (v : Value) : Option Value := if v.kind = kind then some v else none

/-- pops the top if it is of the kind -/
def popKind (kind : Kind) : StackM Value := popWith kind (ofKind? kind)

/-- the item at position n if it is of the kind -/
def peekKind (kind : Kind) (n : Nat) : StackM Value := peekWith kind (ofKind? kind) n

def popBoolean : StackM Bool := popWith .boolean fun | .boolean b => some b | _ => none

def popInteger : StackM Int64 := popWith .integer fun | .integer n => some n | _ => none

def popDouble : StackM Float := popWith .double fun | .double x => some x | _ => none

def popString : StackM String := popWith .string fun | .string s => some s | _ => none

def popVec3 : StackM Vec3 := popWith .vec3 fun | .vec3 v => some v | _ => none

def popFraction : StackM Fraction := popWith .fraction fun | .fraction q => some q | _ => none

def popTimecode : StackM Timecode := popWith .timecode fun | .timecode t => some t | _ => none

def popList : StackM (List Value) := popWith .list fun | .list items => some items | _ => none

def popMap : StackM (List (String × Value)) := popWith .map fun | .map entries => some entries | _ => none

/-! ## Coercing pops and peeks -/

/-- numbers as doubles, anything else as NaN -/
def popAsDouble : StackM Float := do return (← pop).asDouble

def popAsBoolean : StackM Bool := do return (← pop).asBoolean

/-- the text as it is shown -/
def popAsString : StackM String := do return (← pop).text

def peekAsDouble (n : Nat) : StackM Float := do return (← peek n).asDouble

def peekAsBoolean (n : Nat) : StackM Bool := do return (← peek n).asBoolean

def peekAsString (n : Nat) : StackM String := do return (← peek n).text

end Stack

end ReversePolish
