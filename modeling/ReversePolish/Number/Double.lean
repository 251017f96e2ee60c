/-
Doubles as exact numbers. The bits of a finite double give a sign, a significand m and an exponent q with
|x| = m * 2^q. Whole parts, roundings to a whole number and conversions to 64-bit integers are computed on m and q in
exact integer arithmetic, so they need nothing of the hardware operations.
-/

namespace ReversePolish.Double

/-- 2^63: the sign bit, above all others -/
def signBit : Nat := 0x8000000000000000

/-- 2^52: the leading bit of a significand, which the bits of a double do not hold -/
def leadingBit : Nat := 0x10000000000000

/-- is the sign bit set? -/
def negative (x : Float) : Bool := decide (signBit ≤ x.toBits.toNat)

/-- the biased exponent field -/
def exponentField (x : Float) : Nat := x.toBits.toNat / leadingBit % 2048

/-- the m of a finite |x| = m * 2^q -/
def significand (x : Float) : Nat :=
  let fraction := x.toBits.toNat % leadingBit
  if exponentField x = 0 then fraction else leadingBit + fraction

/-- the q of a finite |x| = m * 2^q -/
def exponent (x : Float) : Int :=
  if exponentField x = 0 then -1074 else (exponentField x : Int) - 1075

/-! ## Whole numbers -/

/-- the whole part of |x| -/
def whole (x : Float) : Nat :=
  if 0 ≤ exponent x then significand x * Nat.pow 2 (exponent x).toNat
  else significand x / Nat.pow 2 (-exponent x).toNat

/-- does a finite x have no fractional part? -/
def isWhole (x : Float) : Bool :=
  decide (0 ≤ exponent x) || significand x % Nat.pow 2 (-exponent x).toNat == 0

/-- a finite x cut towards zero -/
def truncated (x : Float) : Int :=
  if negative x then -(whole x : Int) else whole x

/-- the greatest integer at most x -/
def floored (x : Float) : Int :=
  if isWhole x || !negative x then truncated x else truncated x - 1

/-- the least integer at least x -/
def ceiled (x : Float) : Int :=
  if isWhole x || negative x then truncated x else truncated x + 1

/-- the integer nearest to x, halves away from zero -/
def nearest (x : Float) : Int :=
  let magnitude : Nat :=
    if 0 ≤ exponent x then whole x
    else (2 * significand x + Nat.pow 2 (-exponent x).toNat) / Nat.pow 2 ((-exponent x).toNat + 1)
  if negative x then -(magnitude : Int) else magnitude

/-- the double n; a zero takes the sign of x -/
def ofWhole (x : Float) (n : Int) : Float :=
  if n = 0 then (if negative x then -0.0 else 0.0) else Float.ofInt n

def floor (x : Float) : Float := if x.isFinite then ofWhole x (floored x) else x

def ceil (x : Float) : Float := if x.isFinite then ofWhole x (ceiled x) else x

def round (x : Float) : Float := if x.isFinite then ofWhole x (nearest x) else x

/-! ## Conversions -/

/-- cut towards zero, held within the 64-bit range; NaN gives 0 -/
def toInt64 (x : Float) : Int64 :=
  if x.isNaN then 0
  else if x.isFinite then Int64.ofIntClamp (truncated x)
  else if negative x then Int64.minValue
  else Int64.maxValue

/-- the double nearest to n, ties to even -/
def ofInt64 (n : Int64) : Float := Float.ofInt n.toInt

/-! ## Order -/

/-- the order of the values; NaN has none -/
def compare? (x y : Float) : Option Ordering :=
  if x < y then some .lt
  else if y < x then some .gt
  else if x == y then some .eq
  else none

/-- the smaller side; a NaN side is passed over -/
def min (x y : Float) : Float :=
  if x.isNaN then y else if y.isNaN then x else if x ≤ y then x else y

/-- the larger side; a NaN side is passed over -/
def max (x y : Float) : Float :=
  if x.isNaN then y else if y.isNaN then x else if x ≤ y then y else x

/-! ## Constants and angles -/

def nan : Float := 0.0 / 0.0

def infinity : Float := 1.0 / 0.0

def pi : Float := 3.141592653589793

def e : Float := 2.718281828459045

/-- degrees to radians, by the rounded constant pi / 180 -/
def radians (x : Float) : Float := x * (pi / 180.0)

/-- radians to degrees, by the rounded constant 180 / pi -/
def degrees (x : Float) : Float := x * 57.29577951308232

end ReversePolish.Double
