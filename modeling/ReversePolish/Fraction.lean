/-
Fractions of 64-bit integers in lowest terms, the sign on the numerator. A fraction carries the proof that it is in
lowest terms, so every constructor says why its result is.

Arithmetic is exact on unbounded integers and then brought to lowest terms. A result that does not fit 64 bits is
replaced by a continued-fraction approximation of its value as a double. A zero denominator is allowed: it reads as a
signed infinity, or as no number for 0/0. Fractions closer than `precision` count as equal in comparisons.
-/
import ReversePolish.Number.Decimal

namespace ReversePolish

namespace Fraction

/-! ## Lowest terms -/

/-- lowest terms with a denominator of at least zero; 0/0 stays -/
def lowest (n d : Int) : Int × Int :=
  let (n, d) := if d < 0 then (-n, -d) else (n, d)
  let g := Nat.gcd n.natAbs d.natAbs
  if 1 < g then (n / g, d / g) else (n, d)

/-- a pair that cannot be shortened, its sign above -/
structure InLowestTerms (n d : Int) : Prop where
  nonneg : 0 ≤ d
  gcd : Nat.gcd n.natAbs d.natAbs ≤ 1

instance (n d : Int) : Decidable (InLowestTerms n d) :=
  decidable_of_decidable_of_iff (p := 0 ≤ d ∧ Nat.gcd n.natAbs d.natAbs ≤ 1)
    ⟨fun h => ⟨h.1, h.2⟩, fun h => ⟨h.nonneg, h.gcd⟩⟩

/-- division by the greatest common divisor shortens as far as can be -/
theorem inLowestTerms_div {n d : Int} (hd : 0 ≤ d) (hg : 1 < Nat.gcd n.natAbs d.natAbs) :
    InLowestTerms (n / (Nat.gcd n.natAbs d.natAbs : Nat)) (d / (Nat.gcd n.natAbs d.natAbs : Nat)) := by
  refine ⟨Int.ediv_nonneg hd (Int.natCast_nonneg _), ?_⟩
  have hunit := Int.gcd_ediv_gcd_ediv_gcd (i := n) (j := d) (by unfold Int.gcd; omega)
  exact Nat.le_of_eq hunit

theorem inLowestTerms_lowest (n d : Int) : InLowestTerms (lowest n d).1 (lowest n d).2 := by
  -- after the sign has moved above, the denominator is not negative
  have hshorten (n d : Int) (hd : 0 ≤ d) :
      InLowestTerms (if 1 < Nat.gcd n.natAbs d.natAbs then
          (n / (Nat.gcd n.natAbs d.natAbs : Nat), d / (Nat.gcd n.natAbs d.natAbs : Nat)) else (n, d)).1
        (if 1 < Nat.gcd n.natAbs d.natAbs then
          (n / (Nat.gcd n.natAbs d.natAbs : Nat), d / (Nat.gcd n.natAbs d.natAbs : Nat)) else (n, d)).2 := by
    split
    · rename_i hg
      exact inLowestTerms_div hd hg
    · rename_i hg
      exact ⟨hd, Nat.not_lt.1 hg⟩
  unfold lowest
  by_cases hd : d < 0
  · simp only [if_pos hd]
    exact hshorten (-n) (-d) (by omega)
  · simp only [if_neg hd]
    exact hshorten n d (by omega)

/-- shortening makes nothing larger -/
theorem natAbs_lowest_le (n d : Int) : (lowest n d).1.natAbs ≤ n.natAbs ∧ (lowest n d).2.natAbs ≤ d.natAbs := by
  unfold lowest
  by_cases hd : d < 0
  · simp only [if_pos hd]
    split
    · rw [← Int.natAbs_neg n, ← Int.natAbs_neg d]
      exact ⟨Int.natAbs_ediv_le_natAbs _ _, Int.natAbs_ediv_le_natAbs _ _⟩
    · exact ⟨by simp, by simp⟩
  · simp only [if_neg hd]
    split
    · exact ⟨Int.natAbs_ediv_le_natAbs _ _, Int.natAbs_ediv_le_natAbs _ _⟩
    · exact ⟨Nat.le_refl _, Nat.le_refl _⟩

/-- is n in the range of 64-bit integers? -/
def fits (n : Int) : Bool := decide (-0x8000000000000000 ≤ n ∧ n < 0x8000000000000000)

theorem fits_iff (n : Int) : fits n = true ↔ -0x8000000000000000 ≤ n ∧ n < 0x8000000000000000 := decide_eq_true_iff

theorem toInt_ofInt_of_fits {n : Int} (h : fits n = true) : (Int64.ofInt n).toInt = n :=
  Int64.toInt_ofInt_of_le ((fits_iff n).1 h).1 ((fits_iff n).1 h).2

/-- parts that are smaller than 2^63 fit in lowest terms, whichever way the sign moves -/
theorem fits_lowest {n d : Int} (hn : n.natAbs < 0x8000000000000000) (hd : d.natAbs < 0x8000000000000000) :
    (fits (lowest n d).1 && fits (lowest n d).2) = true := by
  obtain ⟨hn', hd'⟩ := natAbs_lowest_le n d
  rw [Bool.and_eq_true, fits_iff, fits_iff]
  omega

end Fraction

/-- a fraction in lowest terms -/
@[ext]
structure Fraction where
  num : Int64
  den : Int64
  canonical : Fraction.InLowestTerms num.toInt den.toInt := by decide
deriving DecidableEq

namespace Fraction

/-- fractions closer than this compare equal -/
def precision : Float := 1e-11

/-- largest denominator of an approximation -/
def maxDenominator : Nat := 0x10000

/-- largest number of continued-fraction terms -/
def maxTerms : Nat := 100

/-- a remainder up to this ends the expansion -/
def epsilon : Float := 2.220446049250313e-16

def ofInteger (n : Int64) : Fraction where
  num := n
  den := 1
  canonical := ⟨by decide, Nat.le_of_eq (Nat.gcd_one_right n.toInt.natAbs)⟩

/-- n/d in lowest terms, which fit -/
def shortened (n d : Int) (h : (fits (lowest n d).1 && fits (lowest n d).2) = true) : Fraction where
  num := Int64.ofInt (lowest n d).1
  den := Int64.ofInt (lowest n d).2
  canonical := by
    rw [Bool.and_eq_true] at h
    rw [toInt_ofInt_of_fits h.1, toInt_ofInt_of_fits h.2]
    exact inLowestTerms_lowest n d

/-! ## Approximation of a double -/

/-- Convergents h/k of `target`, the last two being hPrev/kPrev and h/k and `x` the complete quotient that follows.
Ends after `terms` more terms, at a denominator over the limit or a number over 64 bits, at a convergent close enough,
or at a remainder that is practically zero. -/
def convergent (target : Float) : (terms : Nat) → (hPrev h kPrev k : Nat) → (x : Float) → Nat × Nat
  | 0, _, h, _, k, _ => (h, k)
  | terms + 1, hPrev, h, kPrev, k, x =>
    let a := Double.whole x
    let hNext := a * h + hPrev
    let kNext := a * k + kPrev
    if 0x8000000000000000 ≤ hNext ∨ maxDenominator < kNext then (h, k)
    else if (Float.ofNat hNext / Float.ofNat kNext - target).abs < precision then (hNext, kNext)
    else
      let rest := x - Float.ofNat a
      if rest ≤ epsilon then (hNext, kNext)
      else convergent target terms h hNext k kNext (1.0 / rest)

/-- the convergents stay within their limits -/
theorem convergent_bounds (target : Float) (terms hPrev h kPrev k : Nat) (x : Float) (hh : h < 0x8000000000000000)
    (hk : k ≤ maxDenominator) :
    (convergent target terms hPrev h kPrev k x).1 < 0x8000000000000000 ∧
      (convergent target terms hPrev h kPrev k x).2 ≤ maxDenominator := by
  induction terms generalizing hPrev h kPrev k x with
  | zero => exact ⟨hh, hk⟩
  | succ terms ih =>
    unfold convergent
    dsimp only
    split
    · exact ⟨hh, hk⟩
    · rename_i hlimits
      have hnext : Double.whole x * h + hPrev < 0x8000000000000000 ∧ Double.whole x * k + kPrev ≤ maxDenominator := by
        rw [not_or, Nat.not_le, Nat.not_lt] at hlimits
        exact hlimits
      split
      · exact hnext
      · split
        · exact hnext
        · exact ih h _ k _ _ hnext.1 hnext.2

def sign (x : Float) : Int := if x < 0.0 then -1 else 1

theorem natAbs_sign (x : Float) : (sign x).natAbs = 1 := by
  unfold sign
  split <;> rfl

/-- the parts that an approximation ends with -/
theorem convergent_fits (x : Float) :
    (sign x * (convergent x.abs maxTerms 0 1 1 0 x.abs).1).natAbs < 0x8000000000000000 ∧
      ((convergent x.abs maxTerms 0 1 1 0 x.abs).2 : Int).natAbs < 0x8000000000000000 := by
  obtain ⟨hh, hk⟩ := convergent_bounds x.abs maxTerms 0 1 1 0 x.abs (by decide) (by decide)
  unfold maxDenominator at hk
  rw [Int.natAbs_mul, natAbs_sign]
  omega

/-- the fraction nearest to a double by its continued fraction; numbers of 2^62 and more are cut to integers -/
def ofDouble (x : Float) : Fraction :=
  if x.isNaN then shortened 0 0 (by decide)
  else if x.abs.isInf then shortened (sign x) 0 (fits_lowest (by rw [natAbs_sign]; decide) (by decide))
  else if 4611686018427387904.0 ≤ x.abs then ofInteger (Int64.ofInt (sign x * (Double.toInt64 x.abs).toInt))
  else
    let c := convergent x.abs maxTerms 0 1 1 0 x.abs
    shortened (sign x * c.1) c.2 (fits_lowest (convergent_fits x).1 (convergent_fits x).2)

/-! ## Construction and arithmetic -/

/-- n/d in lowest terms if both fit 64 bits, else the approximation of its value -/
def ofWide (n d : Int) : Fraction :=
  if h : (fits (lowest n d).1 && fits (lowest n d).2) = true then shortened n d h
  else ofDouble (Float.ofInt (lowest n d).1 / Float.ofInt (lowest n d).2)

/-- n/d in lowest terms -/
def make (n d : Int64) : Fraction := ofWide n.toInt d.toInt

/-- the value as a double; a zero denominator gives a signed infinity, 0/0 NaN -/
def toDouble (q : Fraction) : Float :=
  if q.den = 0 then
    if q.num < 0 then -Double.infinity else if 0 < q.num then Double.infinity else Double.nan
  else Double.ofInt64 q.num / Double.ofInt64 q.den

def reciprocal (q : Fraction) : Fraction := make q.den q.num

/-- does the value have no fractional part? -/
def isIntegral (q : Fraction) : Bool := q.den == 1

def add (p q : Fraction) : Fraction :=
  ofWide (p.num.toInt * q.den.toInt + q.num.toInt * p.den.toInt) (p.den.toInt * q.den.toInt)

def sub (p q : Fraction) : Fraction :=
  ofWide (p.num.toInt * q.den.toInt - q.num.toInt * p.den.toInt) (p.den.toInt * q.den.toInt)

def mul (p q : Fraction) : Fraction :=
  ofWide (p.num.toInt * q.num.toInt) (p.den.toInt * q.den.toInt)

def neg (q : Fraction) : Fraction := ofWide (-q.num.toInt) q.den.toInt

/-- division multiplies by the reciprocal -/
def div (p q : Fraction) : Fraction := p.mul q.reciprocal

/-- `result` times the n-th power of `square`, by repeated squaring -/
def powerLoop (result square : Fraction) (n : Nat) : Fraction :=
  if n = 0 then result
  else
    let result := if n % 2 = 1 then result.mul square else result
    if n / 2 = 0 then result else powerLoop result (square.mul square) (n / 2)
termination_by n
decreasing_by omega

/-- whole exponents by repeated squaring, others through doubles -/
def power (base exponent : Fraction) : Fraction :=
  if exponent.isIntegral then
    powerLoop (ofInteger 1) (if exponent.num < 0 then base.reciprocal else base) exponent.num.toInt.natAbs
  else ofDouble (base.toDouble.pow exponent.toDouble)

def squareRoot (q : Fraction) : Fraction := ofDouble q.toDouble.sqrt

/-! ## Comparison and text -/

/-- equal as doubles, or closer than `precision` -/
def close (p q : Fraction) : Bool :=
  p.toDouble == q.toDouble || decide ((p.toDouble - q.toDouble).abs < precision)

/-- the order of the values; close fractions are equal and 0/0 has no order -/
def compare? (p q : Fraction) : Option Ordering :=
  if p.close q then some .eq else Double.compare? p.toDouble q.toDouble

def text (q : Fraction) : String := Decimal.integer q.num.toInt ++ "/" ++ Decimal.integer q.den.toInt

end Fraction

end ReversePolish
