/-
Decimal text of integers and doubles, chosen in exact arithmetic.

`fixed` rounds the exact value of a double to a set number of places, ties to even, and never uses an exponent.
`shortest` selects the fewest digits that read back to the same double: for one digit, two digits and so on it tests
the two neighbours of the value on that decimal grid against the interval of reals that round to the double, and the
first grid with a hit wins. Of two hits the nearer is taken, and on an exact tie the upper one. `plain` and `literal?`
are the two layouts of the selected digits: always positional, and with a point and, far from 1, an exponent.
-/
import ReversePolish.Number.Double

namespace ReversePolish.Decimal

/-- decimal digits of a natural number, most significant first -/
def digits (n : Nat) : List Char := Nat.toDigits 10 n

/-- decimal text of an integer -/
def integer (n : Int) : String :=
  String.ofList (if n < 0 then '-' :: digits n.natAbs else digits n.natAbs)

/-- fills up with zeros in front to at least `width` characters -/
def zeroFilled (width : Nat) (s : List Char) : List Char :=
  List.replicate (width - s.length) '0' ++ s

/-- the sign of a double in front of the text of its magnitude -/
def signed (x : Float) (text : List Char) : String :=
  String.ofList (if Double.negative x then '-' :: text else text)

/-- the texts of the doubles that are no numbers -/
def special (x : Float) : String :=
  if x.isNaN then "NaN" else if Double.negative x then "-inf" else "inf"

/-! ## A fixed number of places -/

/-- num / den to the nearest integer, ties to even -/
def nearestQuotient (num den : Nat) : Nat :=
  let q := num / den
  match compare (2 * (num % den)) den with
  | .lt => q
  | .gt => q + 1
  | .eq => if q % 2 = 0 then q else q + 1

/-- numerator and denominator of a finite |x| -/
def ratio (x : Float) : Nat × Nat :=
  (Double.significand x * Nat.pow 2 (Double.exponent x).toNat, Nat.pow 2 (-Double.exponent x).toNat)

/-- `places` digits after the point, the exact value rounded with ties to even; NaN and infinities by name -/
def fixed (places : Nat) (x : Float) : String :=
  if x.isFinite then
    let (num, den) := ratio x
    let text := zeroFilled (places + 1) (digits (nearestQuotient (num * Nat.pow 10 places) den))
    let cut := text.length - places
    signed x (text.take cut ++ '.' :: text.drop cut)
  else special x

/-! ## The fewest digits that read back -/

/-- the digits, most significant first and without trailing zeros, times 10^exp -/
structure Shortest where
  digits : List Char
  exp : Int

/-- compares d * 10^i with n * 2^j exactly -/
def compareScaled (d : Nat) (i : Int) (n : Nat) (j : Int) : Ordering :=
  compare (d * Nat.pow 10 i.toNat * Nat.pow 2 (-j).toNat) (n * Nat.pow 2 j.toNat * Nat.pow 10 (-i).toNat)

/-- does d * 10^i round to the magnitude of x? The ends of the interval belong to an even significand; below a power
of two the interval is half as wide. -/
def readsBack (x : Float) (d : Nat) (i : Int) : Bool :=
  let m := Double.significand x
  let q := Double.exponent x - 2
  let narrow := m == Double.leadingBit && decide (1 < Double.exponentField x)
  let below := compareScaled d i (if narrow then 4 * m - 1 else 4 * m - 2) q
  let above := compareScaled d i (4 * m + 2) q
  let ends := m % 2 == 0
  (below == .gt || (ends && below == .eq)) && (above == .lt || (ends && above == .eq))

/-- the k with 10^(k-1) ≤ |x| < 10^k: every positive double is at least 1 when scaled by 10^400 -/
def scale (x : Float) : Int :=
  let (num, den) := ratio x
  ((digits (num * Nat.pow 10 400 / den)).length : Int) - 400

/-- the better of the two neighbours of |x| on the grid 10^i, if one reads back -/
def onGrid (x : Float) (i : Int) : Option Nat :=
  let (num, den) := ratio x
  let n := num * Nat.pow 10 (-i).toNat
  let d := den * Nat.pow 10 i.toNat
  let low := n / d
  match readsBack x low i, readsBack x (low + 1) i with
  | true, true => some (if 2 * (n % d) < d then low else low + 1)
  | true, false => some low
  | false, true => some (low + 1)
  | false, false => none

/-- moves trailing zeros of the digits into the exponent -/
def Shortest.ofNat (d : Nat) (i : Int) : Shortest :=
  let all := Decimal.digits d
  let kept := (all.reverse.dropWhile (· == '0')).reverse
  ⟨kept, i + ((all.length - kept.length : Nat) : Int)⟩

/-- the selected digits of a finite x other than zero; seventeen always suffice, and the exact value stands behind -/
def shortest (x : Float) : Shortest :=
  let k := scale x
  let found := (List.range 17).findSome? fun (n : Nat) =>
    let i := k - ((n : Int) + 1)
    (onGrid x i).map fun d => Shortest.ofNat d i
  found.getD (Shortest.ofNat (ratio x).1 0)

namespace Shortest

/-- exponent of the leading digit -/
def leading (s : Shortest) : Int := s.exp + s.digits.length - 1

/-- positional digits: before the point, and after it -/
def parts (s : Shortest) : List Char × List Char :=
  if 0 ≤ s.exp then (s.digits ++ List.replicate s.exp.toNat '0', [])
  else
    let all := zeroFilled ((-s.exp).toNat + 1) s.digits
    let cut := all.length - (-s.exp).toNat
    (all.take cut, all.drop cut)

end Shortest

/-- positional text without an exponent; whole numbers have no point -/
def plain (x : Float) : String :=
  if !x.isFinite then special x
  else if Double.significand x = 0 then signed x ['0']
  else
    match (shortest x).parts with
    | (before, []) => signed x before
    | (before, after) => signed x (before ++ '.' :: after)

/-- the digits after a point, never none -/
def orZero (s : List Char) : List Char := if s.isEmpty then ['0'] else s

/-- text that reads back as the same double: always with a point, positional for leading exponents from -4 to 15,
otherwise one digit before the point and an exponent. NaN and the infinities have none. -/
def literal? (x : Float) : Option String :=
  if !x.isFinite then none
  else if Double.significand x = 0 then some (signed x ['0', '.', '0'])
  else
    let s := shortest x
    if -4 ≤ s.leading ∧ s.leading < 16 then
      let (before, after) := s.parts
      some (signed x (before ++ '.' :: orZero after))
    else
      some (signed x (s.digits.take 1 ++ '.' :: orZero (s.digits.drop 1)) ++ "e" ++ integer s.leading)

end ReversePolish.Decimal
