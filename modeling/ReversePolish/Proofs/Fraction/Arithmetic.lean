/-
Arithmetic of fractions is carried out within its limits, and exactly where it can be.

The operations work on unbounded integers, and replace a result that does not fit by an approximation. Here they are
carried out once more as a machine would: every integer in between must be in the range of 128 bits, and an
approximation, which puts its own result together as a fraction again, is entered only if there is room for one more
(`ofWideWithin`). Results:
- `lowestWithin_eq`, `ofDoubleWithin_eq`, `ofWideWithin_eq`: lowest terms need no more than 128 bits, an approximation
  needs no further one, and so a fraction needs room for one at most;
- `lowest_eq_rat`, `ofWide_exact`: lowest terms are those of the rational number, so a result that fits is exact;
- `arithmetic_within_limits` puts these together for all operations.
-/
import Mathlib.Data.Rat.Lemmas
import Mathlib.Tactic.FieldSimp
import Mathlib.Tactic.Ring
import ReversePolish.Proofs.Fraction

namespace ReversePolish.Fraction

/-! ## Integers of 128 bits -/

/-- 2^127 -/
def wideLimit : Nat := 0x80000000000000000000000000000000

/-- the integer, if it is in the range of 128 bits -/
def wide? (n : Int) : Option Int := if -(wideLimit : Int) ≤ n ∧ n < wideLimit then some n else none

theorem wide?_eq {n : Int} (h : n.natAbs < wideLimit) : wide? n = some n := by
  unfold wide?
  exact if_pos (by omega)

/-- divides by the greatest common divisor -/
def shortenWithin (n d : Int) : Option (Int × Int) :=
  if 1 < Nat.gcd n.natAbs d.natAbs then do
    let g ← wide? (Nat.gcd n.natAbs d.natAbs : Nat)
    let n ← wide? (n / g)
    let d ← wide? (d / g)
    return (n, d)
  else some (n, d)

/-- lowest terms, computed in 128 bits -/
def lowestWithin (n d : Int) : Option (Int × Int) :=
  if d < 0 then do
    let n ← wide? (-n)
    let d ← wide? (-d)
    shortenWithin n d
  else shortenWithin n d

theorem shortenWithin_eq {n d : Int} (hn : n.natAbs < wideLimit) (hd : d.natAbs < wideLimit) :
    shortenWithin n d =
      some (if 1 < Nat.gcd n.natAbs d.natAbs then
        (n / (Nat.gcd n.natAbs d.natAbs : Nat), d / (Nat.gcd n.natAbs d.natAbs : Nat)) else (n, d)) := by
  unfold shortenWithin
  split
  · rename_i hg
    -- a divisor of both is at most the one that is not zero
    have hdivisor : Nat.gcd n.natAbs d.natAbs < wideLimit := by
      rcases Nat.eq_zero_or_pos n.natAbs with hzero | hpos
      · rw [hzero, Nat.gcd_zero_left]
        exact hd
      · exact Nat.lt_of_le_of_lt (Nat.gcd_le_left _ hpos) hn
    have hquotient (k : Int) (hk : k.natAbs < wideLimit) :
        wide? (k / (Nat.gcd n.natAbs d.natAbs : Nat)) = some (k / (Nat.gcd n.natAbs d.natAbs : Nat)) :=
      wide?_eq (Nat.lt_of_le_of_lt (Int.natAbs_ediv_le_natAbs _ _) hk)
    rw [wide?_eq (n := (Nat.gcd n.natAbs d.natAbs : Nat)) (by simpa using hdivisor)]
    simp only [Option.bind_eq_bind, Option.bind_some, hquotient n hn, hquotient d hd, Option.pure_def]
  · rfl

theorem lowestWithin_eq {n d : Int} (hn : n.natAbs < wideLimit) (hd : d.natAbs < wideLimit) :
    lowestWithin n d = some (lowest n d) := by
  unfold lowestWithin lowest
  by_cases hsign : d < 0
  · have hn' : (-n).natAbs < wideLimit := by rwa [Int.natAbs_neg]
    have hd' : (-d).natAbs < wideLimit := by rwa [Int.natAbs_neg]
    simp only [if_pos hsign, wide?_eq hn', wide?_eq hd', Option.bind_eq_bind, Option.bind_some]
    exact shortenWithin_eq hn' hd'
  · simp only [if_neg hsign]
    exact shortenWithin_eq hn hd

/-! ## Approximations -/

/-- the approximation of a double; the parts that it ends with are made into a fraction as given, and where nothing is
made the room that is left is the one given -/
def ofDoubleVia (make : Int → Int → Option (Fraction × Nat)) (room : Nat) (x : Float) : Option (Fraction × Nat) :=
  if x.isNaN then make 0 0
  else if x.abs.isInf then make (sign x) 0
  else if 4611686018427387904.0 ≤ x.abs then
    some (ofInteger (Int64.ofInt (sign x * (Double.toInt64 x.abs).toInt)), room)
  else
    let c := convergent x.abs maxTerms 0 1 1 0 x.abs
    make (sign x * c.1) c.2

/-- the fraction of a pair in lowest terms, if both parts fit -/
def ofLowest? (q : Int × Int) : Option Fraction :=
  if h : InLowestTerms q.1 q.2 ∧ fits q.1 = true ∧ fits q.2 = true then
    some ⟨Int64.ofInt q.1, Int64.ofInt q.2, by rw [toInt_ofInt_of_fits h.2.1, toInt_ofInt_of_fits h.2.2]; exact h.1⟩
  else none

theorem ofLowest?_of_fits {n d : Int} (h : (fits (lowest n d).1 && fits (lowest n d).2) = true) :
    ofLowest? (lowest n d) = some (ofWide n d) := by
  rw [ofWide_of_fits h]
  rw [Bool.and_eq_true] at h
  exact dif_pos ⟨inLowestTerms_lowest n d, h⟩

theorem ofLowest?_eq_none {n d : Int} (h : ¬ (fits (lowest n d).1 && fits (lowest n d).2) = true) :
    ofLowest? (lowest n d) = none := by
  rw [Bool.and_eq_true] at h
  exact dif_neg fun h' => h h'.2

/-- n/d in lowest terms, computed in 128 bits, with the room that is left: a pair that does not fit takes up room for an
approximation -/
def ofWideWithin : (room : Nat) → (n d : Int) → Option (Fraction × Nat)
  | 0, n, d => do
    let q ← lowestWithin n d
    (ofLowest? q).map (·, 0)
  | room + 1, n, d => do
    let q ← lowestWithin n d
    (ofLowest? q).elim (ofDoubleVia (ofWideWithin room) room (Float.ofInt q.1 / Float.ofInt q.2))
      fun r => some (r, room + 1)

/-- the approximation of a double, with room for so many further ones -/
def ofDoubleWithin (room : Nat) (x : Float) : Option (Fraction × Nat) := ofDoubleVia (ofWideWithin room) room x

/-- a pair that fits in lowest terms takes up no room -/
theorem ofWideWithin_of_fits (room : Nat) {n d : Int} (hn : n.natAbs < wideLimit) (hd : d.natAbs < wideLimit)
    (hfits : (fits (lowest n d).1 && fits (lowest n d).2) = true) :
    ofWideWithin room n d = some (ofWide n d, room) := by
  cases room <;>
    simp only [ofWideWithin, lowestWithin_eq hn hd, Option.bind_eq_bind, Option.bind_some, ofLowest?_of_fits hfits,
      Option.map_some, Option.elim_some]

/-- an approximation needs no further one -/
theorem ofDoubleWithin_eq (room : Nat) (x : Float) : ofDoubleWithin room x = some (ofDouble x, room) := by
  have hmake {n d : Int} (hn : n.natAbs < 0x8000000000000000) (hd : d.natAbs < 0x8000000000000000) :
      ofWideWithin room n d = some (shortened n d (fits_lowest hn hd), room) := by
    have hfits := fits_lowest hn hd
    rw [ofWideWithin_of_fits room (by unfold wideLimit; omega) (by unfold wideLimit; omega) hfits, ofWide_of_fits hfits]
  unfold ofDoubleWithin ofDoubleVia ofDouble
  split
  · exact hmake (by decide) (by decide)
  · split
    · exact hmake (by rw [natAbs_sign]; decide) (by decide)
    · split
      · rfl
      · exact hmake (convergent_fits x).1 (convergent_fits x).2

/-- a fraction needs room for one approximation at most -/
theorem ofWideWithin_eq (room : Nat) {n d : Int} (hn : n.natAbs < wideLimit) (hd : d.natAbs < wideLimit) :
    ∃ rest, ofWideWithin (room + 1) n d = some (ofWide n d, rest) ∧ room ≤ rest := by
  by_cases hfits : (fits (lowest n d).1 && fits (lowest n d).2) = true
  · exact ⟨room + 1, ofWideWithin_of_fits _ hn hd hfits, Nat.le_succ room⟩
  · refine ⟨room, ?_, Nat.le_refl room⟩
    have happrox := ofDoubleWithin_eq room (Float.ofInt (lowest n d).1 / Float.ofInt (lowest n d).2)
    have hwide : ofWide n d = ofDouble (Float.ofInt (lowest n d).1 / Float.ofInt (lowest n d).2) := dif_neg hfits
    simp only [ofWideWithin, lowestWithin_eq hn hd, Option.bind_eq_bind, Option.bind_some, ofLowest?_eq_none hfits,
      Option.elim_none, hwide]
    exact happrox

/-! ## Operations -/

/-- sum or difference: the numerators are multiplied crosswise and combined -/
def crossWithin (combine : Int → Int → Int) (room : Nat) (p q : Fraction) : Option (Fraction × Nat) := do
  let x ← wide? (p.num.toInt * q.den.toInt)
  let y ← wide? (q.num.toInt * p.den.toInt)
  let n ← wide? (combine x y)
  let d ← wide? (p.den.toInt * q.den.toInt)
  ofWideWithin room n d

def mulWithin (room : Nat) (p q : Fraction) : Option (Fraction × Nat) := do
  let n ← wide? (p.num.toInt * q.num.toInt)
  let d ← wide? (p.den.toInt * q.den.toInt)
  ofWideWithin room n d

def negWithin (room : Nat) (q : Fraction) : Option (Fraction × Nat) := do
  let n ← wide? (-q.num.toInt)
  ofWideWithin room n q.den.toInt

def makeWithin (room : Nat) (n d : Int64) : Option (Fraction × Nat) := ofWideWithin room n.toInt d.toInt

def reciprocalWithin (room : Nat) (q : Fraction) : Option (Fraction × Nat) := makeWithin room q.den q.num

/-- the multiplication has the room that the reciprocal leaves -/
def divWithin (room : Nat) (p q : Fraction) : Option (Fraction × Nat) := do
  let r ← reciprocalWithin room q
  mulWithin r.2 p r.1

theorem natAbs_toInt_le (n : Int64) : n.toInt.natAbs ≤ 0x8000000000000000 := by
  have hlow := n.le_toInt
  have hhigh := n.toInt_lt
  omega

/-- a product of two 64-bit integers leaves room for a sum of two such products, if one factor is a denominator -/
theorem natAbs_cross_le (n : Int64) (q : Fraction) :
    (n.toInt * q.den.toInt).natAbs ≤ 0x3fffffffffffffff8000000000000000 := by
  rw [Int.natAbs_mul]
  exact Nat.mul_le_mul (natAbs_toInt_le n) q.den_le

theorem natAbs_product_le (m n : Int64) : (m.toInt * n.toInt).natAbs ≤ 0x40000000000000000000000000000000 := by
  rw [Int.natAbs_mul]
  exact Nat.mul_le_mul (natAbs_toInt_le m) (natAbs_toInt_le n)

theorem crossWithin_eq {combine : Int → Int → Int} (hcombine : ∀ x y, (combine x y).natAbs ≤ x.natAbs + y.natAbs)
    (room : Nat) (p q : Fraction) :
    ∃ rest, crossWithin combine (room + 1) p q = some (ofWide
      (combine (p.num.toInt * q.den.toInt) (q.num.toInt * p.den.toInt)) (p.den.toInt * q.den.toInt), rest) ∧
      room ≤ rest := by
  have hx := natAbs_cross_le p.num q
  have hy := natAbs_cross_le q.num p
  have hd := natAbs_cross_le p.den q
  have hn := hcombine (p.num.toInt * q.den.toInt) (q.num.toInt * p.den.toInt)
  have hnumerator : (combine (p.num.toInt * q.den.toInt) (q.num.toInt * p.den.toInt)).natAbs < wideLimit := by
    unfold wideLimit
    omega
  have hdenominator : (p.den.toInt * q.den.toInt).natAbs < wideLimit := by
    unfold wideLimit
    omega
  obtain ⟨rest, hwide, hrest⟩ := ofWideWithin_eq room hnumerator hdenominator
  refine ⟨rest, ?_, hrest⟩
  unfold crossWithin
  rw [wide?_eq (Nat.lt_of_le_of_lt hx (by decide)), wide?_eq (Nat.lt_of_le_of_lt hy (by decide))]
  simp only [Option.bind_eq_bind, Option.bind_some, wide?_eq hnumerator, wide?_eq hdenominator, hwide]

theorem mulWithin_eq (room : Nat) (p q : Fraction) :
    ∃ rest, mulWithin (room + 1) p q = some (p.mul q, rest) ∧ room ≤ rest := by
  have hn : (p.num.toInt * q.num.toInt).natAbs < wideLimit := Nat.lt_of_le_of_lt (natAbs_product_le _ _) (by decide)
  have hd : (p.den.toInt * q.den.toInt).natAbs < wideLimit := Nat.lt_of_le_of_lt (natAbs_product_le _ _) (by decide)
  obtain ⟨rest, hwide, hrest⟩ := ofWideWithin_eq room hn hd
  refine ⟨rest, ?_, hrest⟩
  unfold mulWithin
  simp only [wide?_eq hn, wide?_eq hd, Option.bind_eq_bind, Option.bind_some, hwide, mul]

theorem makeWithin_eq (room : Nat) (n d : Int64) :
    ∃ rest, makeWithin (room + 1) n d = some (make n d, rest) ∧ room ≤ rest :=
  ofWideWithin_eq room (Nat.lt_of_le_of_lt (natAbs_toInt_le n) (by decide))
    (Nat.lt_of_le_of_lt (natAbs_toInt_le d) (by decide))

theorem negWithin_eq (room : Nat) (q : Fraction) :
    ∃ rest, negWithin (room + 1) q = some (q.neg, rest) ∧ room ≤ rest := by
  have hn : (-q.num.toInt).natAbs < wideLimit := by
    rw [Int.natAbs_neg]
    exact Nat.lt_of_le_of_lt (natAbs_toInt_le q.num) (by decide)
  obtain ⟨rest, hwide, hrest⟩ := ofWideWithin_eq room hn (Nat.lt_of_le_of_lt (natAbs_toInt_le q.den) (by decide))
  refine ⟨rest, ?_, hrest⟩
  unfold negWithin
  simp only [wide?_eq hn, Option.bind_eq_bind, Option.bind_some, hwide, neg]

theorem divWithin_eq (room : Nat) (p q : Fraction) :
    ∃ rest, divWithin (room + 2) p q = some (p.div q, rest) ∧ room ≤ rest := by
  obtain ⟨left, hreciprocal, hleft⟩ := makeWithin_eq (room + 1) q.den q.num
  obtain ⟨room', rfl⟩ : ∃ k, left = room + k + 1 := ⟨left - room - 1, by omega⟩
  obtain ⟨rest, hmul, hrest⟩ := mulWithin_eq (room + room') p q.reciprocal
  refine ⟨rest, ?_, by omega⟩
  unfold divWithin reciprocalWithin
  rw [hreciprocal]
  exact hmul

/-! ## Exact values -/

/-- the value of a fraction whose denominator is not zero -/
def value (q : Fraction) : ℚ := (q.num.toInt : ℚ) / q.den.toInt

/-- shortening divides both parts by one number -/
theorem lowest_factor (n d : Int) : ∃ g : Int, n = g * (lowest n d).1 ∧ d = g * (lowest n d).2 := by
  have hshorten (n d : Int) : ∃ g : Int,
      n = g * (if 1 < Nat.gcd n.natAbs d.natAbs then
        (n / (Nat.gcd n.natAbs d.natAbs : Nat), d / (Nat.gcd n.natAbs d.natAbs : Nat)) else (n, d)).1 ∧
      d = g * (if 1 < Nat.gcd n.natAbs d.natAbs then
        (n / (Nat.gcd n.natAbs d.natAbs : Nat), d / (Nat.gcd n.natAbs d.natAbs : Nat)) else (n, d)).2 := by
    split
    · exact ⟨(Nat.gcd n.natAbs d.natAbs : Nat), (Int.mul_ediv_cancel' (Int.gcd_dvd_left n d)).symm,
        (Int.mul_ediv_cancel' (Int.gcd_dvd_right n d)).symm⟩
    · exact ⟨1, (Int.one_mul n).symm, (Int.one_mul d).symm⟩
  unfold lowest
  by_cases hd : d < 0
  · simp only [if_pos hd]
    obtain ⟨g, hn, hd⟩ := hshorten (-n) (-d)
    -- the sign goes into the factor
    exact ⟨-g, by rw [Int.neg_mul, ← hn, Int.neg_neg], by rw [Int.neg_mul, ← hd, Int.neg_neg]⟩
  · simp only [if_neg hd]
    exact hshorten n d

/-- lowest terms are numerator and denominator of the rational number -/
theorem lowest_eq_rat {n d : Int} (hd : d ≠ 0) :
    (lowest n d).1 = ((n : ℚ) / d).num ∧ (lowest n d).2 = ((n : ℚ) / d).den := by
  obtain ⟨g, hnum, hden⟩ := lowest_factor n d
  have hlowest := inLowestTerms_lowest n d
  generalize lowest n d = q at hnum hden hlowest
  subst hnum hden
  have hg : g ≠ 0 := left_ne_zero_of_mul hd
  have hpos : 0 < q.2 := by
    have hnonneg := hlowest.nonneg
    have hnonzero : q.2 ≠ 0 := right_ne_zero_of_mul hd
    omega
  have hcoprime : Nat.Coprime q.1.natAbs q.2.natAbs := by
    have hle := hlowest.gcd
    have hgcd : 0 < Nat.gcd q.1.natAbs q.2.natAbs := Nat.gcd_pos_of_pos_right _ (by omega)
    unfold Nat.Coprime
    omega
  have hvalue : ((g * q.1 : Int) : ℚ) / ((g * q.2 : Int) : ℚ) = (q.1 : ℚ) / q.2 := by
    push_cast
    exact mul_div_mul_left _ _ (Int.cast_ne_zero.2 hg)
  rw [hvalue]
  exact ⟨(Rat.num_div_eq_of_coprime hpos hcoprime).symm, (Rat.den_div_eq_of_coprime hpos hcoprime).symm⟩

/-- the fraction is the rational number, if that is one of 64-bit integers -/
def Exactly (q : Fraction) (r : ℚ) : Prop :=
  fits r.num = true → fits r.den = true → q.num.toInt = r.num ∧ q.den.toInt = r.den

theorem ofWide_exact {n d : Int} (hd : d ≠ 0) : (ofWide n d).Exactly ((n : ℚ) / d) := by
  intro hnum hden
  obtain ⟨hn, hd⟩ := lowest_eq_rat (n := n) hd
  rw [← hn] at hnum ⊢
  rw [← hd] at hden ⊢
  rw [ofWide_of_fits (by rw [hnum, hden]; rfl)]
  exact ⟨toInt_ofInt_of_fits hnum, toInt_ofInt_of_fits hden⟩

/-! ## All operations -/

/-- the operations on p and q come to their results in 128 bits with this room -/
structure WithinLimits (p q : Fraction) : Prop where
  add : (crossWithin (· + ·) 1 p q).map Prod.fst = some (p.add q)
  sub : (crossWithin (· - ·) 1 p q).map Prod.fst = some (p.sub q)
  mul : (mulWithin 1 p q).map Prod.fst = some (p.mul q)
  div : (divWithin 2 p q).map Prod.fst = some (p.div q)
  neg : (negWithin 1 p).map Prod.fst = some p.neg
  reciprocal : (reciprocalWithin 1 p).map Prod.fst = some p.reciprocal

theorem withinLimits (p q : Fraction) : WithinLimits p q := by
  have hfst {o : Option (Fraction × Nat)} {r : Fraction} (h : ∃ rest, o = some (r, rest) ∧ 0 ≤ rest) :
      o.map Prod.fst = some r := by
    obtain ⟨rest, rfl, -⟩ := h
    rfl
  exact {
    add := hfst (crossWithin_eq Int.natAbs_add_le 0 p q)
    sub := hfst (crossWithin_eq Int.natAbs_sub_le 0 p q)
    mul := hfst (mulWithin_eq 0 p q)
    div := hfst (divWithin_eq 0 p q)
    neg := hfst (negWithin_eq 0 p)
    reciprocal := hfst (makeWithin_eq 0 p.den p.num) }

/-- the operations on p and q are exact where their results fit -/
structure ExactWhereFits (p q : Fraction) : Prop where
  add : (p.add q).Exactly (p.value + q.value)
  sub : (p.sub q).Exactly (p.value - q.value)
  mul : (p.mul q).Exactly (p.value * q.value)
  neg : p.neg.Exactly (-p.value)
  reciprocal : p.num ≠ 0 → p.reciprocal.Exactly p.value⁻¹

theorem exactWhereFits {p q : Fraction} (hp : p.den ≠ 0) (hq : q.den ≠ 0) : ExactWhereFits p q := by
  have hp' : p.den.toInt ≠ 0 := fun h => hp (Int64.toInt_inj.1 h)
  have hq' : q.den.toInt ≠ 0 := fun h => hq (Int64.toInt_inj.1 h)
  have hpq : p.den.toInt * q.den.toInt ≠ 0 := mul_ne_zero hp' hq'
  have hpr : (p.den.toInt : ℚ) ≠ 0 := Int.cast_ne_zero.2 hp'
  have hqr : (q.den.toInt : ℚ) ≠ 0 := Int.cast_ne_zero.2 hq'
  have hexact {n d : Int} {r : ℚ} (hd : d ≠ 0) (hr : (n : ℚ) / d = r) : (ofWide n d).Exactly r := hr ▸ ofWide_exact hd
  refine ⟨hexact hpq ?_, hexact hpq ?_, hexact hpq ?_, hexact hp' ?_,
    fun hnum => hexact (fun h => hnum (Int64.toInt_inj.1 h)) ?_⟩
  · unfold value
    push_cast
    field_simp
  · unfold value
    push_cast
    field_simp
  · unfold value
    push_cast
    field_simp
  · unfold value
    push_cast
    ring
  · exact (inv_div _ _).symm

/-- **Arithmetic of fractions.** For any fractions p and q: they are in lowest terms with a denominator of at least
zero, or 0/0; every operation stays within 128 bits and needs room for one approximation, division for two and the
approximation of a double for none besides itself; and for nonzero denominators a result is the exact rational number
whenever that has a numerator and a denominator of 64 bits. -/
theorem arithmetic_within_limits (p q : Fraction) :
    (p = .mk 0 0 ∨ 0 ≤ p.den.toInt ∧ Nat.gcd p.num.toInt.natAbs p.den.toInt.natAbs = 1) ∧
      (∀ n d, (makeWithin 1 n d).map Prod.fst = some (make n d)) ∧
      (∀ x, (ofDoubleWithin 0 x).map Prod.fst = some (ofDouble x)) ∧
      WithinLimits p q ∧ (p.den ≠ 0 → q.den ≠ 0 → ExactWhereFits p q) := by
  refine ⟨?_, fun n d => ?_, fun x => ?_, withinLimits p q, exactWhereFits⟩
  · by_cases hzero : p = .mk 0 0
    · exact .inl hzero
    · exact .inr ⟨p.canonical.nonneg, p.gcd_eq hzero⟩
  · obtain ⟨rest, hmake, -⟩ := makeWithin_eq 0 n d
    rw [hmake]
    rfl
  · rw [ofDoubleWithin_eq]
    rfl

/-- (2^63 - 1)/2 + 1/2 = 2^62, although the sum of the products is 2^64 -/
theorem arithmetic_within_limits_halves :
    WithinLimits (make 0x7fffffffffffffff 2) (make 1 2) ∧
      ((make 0x7fffffffffffffff 2).add (make 1 2)).num.toInt = 0x4000000000000000 := by
  obtain ⟨-, -, -, hlimits, hexact⟩ := arithmetic_within_limits (make 0x7fffffffffffffff 2) (make 1 2)
  have hsum : (make 0x7fffffffffffffff 2).value + (make 1 2).value = (0x4000000000000000 : Int) := by decide +kernel
  have hadd := (hexact (by decide) (by decide)).add
  rw [hsum] at hadd
  exact ⟨hlimits, (hadd (by decide) (by decide)).1⟩

end ReversePolish.Fraction
