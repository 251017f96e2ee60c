/-
Equality and order of values.

Values of different kinds are never equal. Doubles compare as numbers, so NaN differs from itself; fractions compare up
to their precision; containers and bodies compare part by part. Integers and doubles are ordered together by value,
every other ordered kind only with itself.
-/
import ReversePolish.Value.Basic

namespace ReversePolish

mutual

def Value.same : Value → Value → Bool
  | .boolean a, .boolean b => a == b
  | .integer a, .integer b => a == b
  | .double a, .double b => a == b
  | .string a, .string b => a == b
  | .vec3 a, .vec3 b => a.same b
  | .fraction a, .fraction b => a.close b
  | .timecode a, .timecode b => a.same b
  | .list a, .list b => Value.sameItems a b
  | .map a, .map b => Value.sameEntries a b
  | .body a, .body b => a.same b
  | _, _ => false

def Value.sameItems : List Value → List Value → Bool
  | [], [] => true
  | a :: as, b :: bs => a.same b && Value.sameItems as bs
  | _, _ => false

def Value.sameEntries : List (String × Value) → List (String × Value) → Bool
  | [], [] => true
  | (j, a) :: as, (k, b) :: bs => j == k && a.same b && Value.sameEntries as bs
  | _, _ => false

def Body.same : Body → Body → Bool
  | ⟨kind, ident, items, locals⟩, ⟨kind', ident', items', locals'⟩ =>
    kind == kind' && ident == ident' && Item.sameItems items items' && Value.sameEntries locals locals'

def Item.sameItems : List Item → List Item → Bool
  | [], [] => true
  | .word a :: as, .word b :: bs => a == b && Item.sameItems as bs
  | .block a :: as, .block b :: bs => a.same b && Item.sameItems as bs
  | _, _ => false

end

/-- the order of two texts, by code points -/
def compareTexts (a b : String) : Ordering := if a < b then .lt else if a = b then .eq else .gt

/-- false before true -/
def compareBooleans : Bool → Bool → Ordering
  | false, true => .lt
  | true, false => .gt
  | _, _ => .eq

/-- the order of two values, where there is one -/
def Value.compare? : Value → Value → Option Ordering
  | .integer a, .integer b => some (compare a.toInt b.toInt)
  | .string a, .string b => some (compareTexts a b)
  | .boolean a, .boolean b => some (compareBooleans a b)
  | .fraction a, .fraction b => a.compare? b
  | .timecode a, .timecode b => some (compare a.toFrames.toInt b.toFrames.toInt)
  | a, b =>
    match a.number?, b.number? with
    | some x, some y => Double.compare? x y
    | _, _ => none

end ReversePolish
