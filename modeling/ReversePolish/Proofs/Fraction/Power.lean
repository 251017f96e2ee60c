/-
Whole powers of fractions.

A power is computed by repeated squaring: the loop holds a partial product x^j and a square x^k, and n is what is left
of the exponent, with j + k * n the exponent that it started with. Every square and every product that the loop asks for
is a power x^i with i up to that exponent, and a smaller power is no larger than a greater one (`fits_pow_of_le`). So if
the power itself is a fraction of 64-bit integers, everything before it is, and nothing is approximated on the way. To
say so, `powerBy` computes with a multiplication and a reciprocal that may refuse. Results:
- `powerLoopBy_total`, `powerBy_total`: with operations that refuse nothing, it is the power itself;
- `powerLoopBy_exact`: with those that refuse an approximation, the loop comes to the exact power;
- `whole_powers_exact` puts these together for exponents of either sign.
-/
import ReversePolish.Proofs.Fraction.Division

namespace ReversePolish.Fraction

/-! ## Repeated squaring with operations that may refuse -/

/-- the product, unless it has to be approximated -/
def mulExact? (p q : Fraction) : Option Fraction := (mulWithin 0 p q).map Prod.fst

/-- the reciprocal, unless it has to be approximated -/
def reciprocalExact? (q : Fraction) : Option Fraction := (reciprocalWithin 0 q).map Prod.fst

/-- repeated squaring by another multiplication, up to the first product that it refuses -/
def powerLoopBy (mul : Fraction → Fraction → Option Fraction) (result square : Fraction) (n : Nat) : Option Fraction :=
  if n = 0 then some result
  else
    (if n % 2 = 1 then mul result square else some result).bind fun result =>
      if n / 2 = 0 then some result
      else (mul square square).bind fun square => powerLoopBy mul result square (n / 2)
termination_by n
decreasing_by omega

/-- the power with a whole exponent, by another multiplication and another reciprocal -/
def powerBy (mul : Fraction → Fraction → Option Fraction) (reciprocal : Fraction → Option Fraction)
    (base : Fraction) (exponent : Int64) : Option Fraction :=
  (if exponent < 0 then reciprocal base else some base).bind fun square =>
    powerLoopBy mul (ofInteger 1) square exponent.toInt.natAbs

/-- with operations that refuse nothing, the loop is the one of the power -/
theorem powerLoopBy_total (result square : Fraction) (n : Nat) :
    powerLoopBy (fun p q => some (p.mul q)) result square n = some (powerLoop result square n) := by
  induction n using Nat.strongRecOn generalizing result square with
  | ind n ih =>
    rw [powerLoopBy, powerLoop]
    by_cases hn : n = 0
    · rw [if_pos hn, if_pos hn]
    · rw [if_neg hn, if_neg hn, ← apply_ite some]
      simp only [Option.bind_some, ih (n / 2) (by omega)]
      exact (apply_ite some _ _ _).symm

theorem powerBy_total (base : Fraction) {exponent : Fraction} (hwhole : exponent.isIntegral = true) :
    powerBy (fun p q => some (p.mul q)) (fun q => some q.reciprocal) base exponent.num =
      some (base.power exponent) := by
  unfold powerBy power
  rw [if_pos hwhole, ← apply_ite some]
  exact powerLoopBy_total _ _ _

/-! ## Sizes of powers -/

/-- a smaller power of an integer is no larger than a greater one, except in sign -/
theorem fits_pow_of_le {a : Int} {i e : Nat} (hi : i ≤ e) (h : fits (a ^ e) = true) : fits (a ^ i) = true := by
  rcases Nat.eq_or_lt_of_le hi with rfl | hlt
  · exact h
  by_cases hsmall : a.natAbs ≤ 1
  · have hpow : (a ^ i).natAbs ≤ 1 := by
      rw [Int.natAbs_pow]
      calc a.natAbs ^ i ≤ 1 ^ i := Nat.pow_le_pow_left hsmall i
        _ = 1 := Nat.one_pow i
    rw [fits_iff]
    omega
  · -- one more factor at least doubles, so the sign bit is not needed for the smaller power
    have hdouble : (a ^ i).natAbs * 2 ≤ (a ^ e).natAbs := by
      rw [Int.natAbs_pow, Int.natAbs_pow]
      calc a.natAbs ^ i * 2 ≤ a.natAbs ^ i * a.natAbs := Nat.mul_le_mul_left _ (by omega)
        _ = a.natAbs ^ (i + 1) := (Nat.pow_succ _ _).symm
        _ ≤ a.natAbs ^ e := Nat.pow_le_pow_right (by omega) hlt
    rw [fits_iff] at h ⊢
    omega

/-- numerator and denominator are 64-bit integers -/
def FitsRat (x : ℚ) : Prop := fits x.num = true ∧ fits x.den = true

theorem FitsRat.pow_of_le {x : ℚ} {i e : Nat} (h : FitsRat (x ^ e)) (hi : i ≤ e) : FitsRat (x ^ i) := by
  obtain ⟨hnum, hden⟩ := h
  rw [Rat.num_pow] at hnum
  rw [Rat.den_pow, Nat.cast_pow] at hden
  refine ⟨?_, ?_⟩
  · rw [Rat.num_pow]
    exact fits_pow_of_le hi hnum
  · rw [Rat.den_pow, Nat.cast_pow]
    exact fits_pow_of_le hi hden

/-! ## Exact products and reciprocals -/

/-- the fraction has this value, in lowest terms or not -/
structure HasValue (q : Fraction) (x : ℚ) : Prop where
  den : q.den ≠ 0
  value : q.value = x

/-- the fraction consists of the numerator and the denominator of the number -/
def Represents (q : Fraction) (x : ℚ) : Prop := q.num.toInt = x.num ∧ q.den.toInt = x.den

theorem Represents.hasValue {q : Fraction} {x : ℚ} (h : q.Represents x) : q.HasValue x := by
  refine ⟨fun hzero => ?_, value_of_parts h.1 h.2⟩
  have hden := h.2
  rw [hzero] at hden
  exact x.den_ne_zero (Int.natCast_eq_zero.1 hden.symm)

/-- a quotient of integers that fits is made without an approximation -/
theorem ofWideWithin_exact {n d : Int} (hn : n.natAbs < wideLimit) (hd : d.natAbs < wideLimit) (hzero : d ≠ 0) {x : ℚ}
    (hx : (n : ℚ) / d = x) (h : FitsRat x) :
    (ofWideWithin 0 n d).map Prod.fst = some (ofWide n d) ∧ (ofWide n d).Represents x := by
  subst hx
  refine ⟨?_, ofWide_exact hzero h.1 h.2⟩
  obtain ⟨hnum, hden⟩ := lowest_eq_rat (n := n) hzero
  have hfits : (fits (lowest n d).1 && fits (lowest n d).2) = true := by
    rw [hnum, hden, Bool.and_eq_true]
    exact h
  rw [ofWideWithin_of_fits 0 hn hd hfits]
  rfl

theorem mulExact?_eq {p q : Fraction} {x y : ℚ} (hp : p.HasValue x) (hq : q.HasValue y) (h : FitsRat (x * y)) :
    mulExact? p q = some (p.mul q) ∧ (p.mul q).Represents (x * y) := by
  have hn : (p.num.toInt * q.num.toInt).natAbs < wideLimit := Nat.lt_of_le_of_lt (natAbs_product_le _ _) (by decide)
  have hd : (p.den.toInt * q.den.toInt).natAbs < wideLimit := Nat.lt_of_le_of_lt (natAbs_product_le _ _) (by decide)
  have hvalue : ((p.num.toInt * q.num.toInt : Int) : ℚ) / ((p.den.toInt * q.den.toInt : Int) : ℚ) = x * y := by
    rw [← hp.value, ← hq.value]
    push_cast
    exact (div_mul_div_comm _ _ _ _).symm
  have hexact := ofWideWithin_exact hn hd (mul_ne_zero (toInt_ne_zero hp.den) (toInt_ne_zero hq.den)) hvalue h
  refine ⟨?_, hexact.2⟩
  unfold mulExact? mulWithin
  simp only [wide?_eq hn, wide?_eq hd, Option.bind_eq_bind, Option.bind_some]
  exact hexact.1

theorem reciprocalExact?_eq {q : Fraction} {x : ℚ} (hq : q.HasValue x) (hnum : q.num ≠ 0) (h : FitsRat x⁻¹) :
    reciprocalExact? q = some q.reciprocal ∧ q.reciprocal.Represents x⁻¹ := by
  have hvalue : (q.den.toInt : ℚ) / (q.num.toInt : ℚ) = x⁻¹ := by
    rw [← hq.value]
    exact (inv_div _ _).symm
  exact ofWideWithin_exact (Nat.lt_of_le_of_lt (natAbs_toInt_le q.den) (by decide))
    (Nat.lt_of_le_of_lt (natAbs_toInt_le q.num) (by decide)) (toInt_ne_zero hnum) hvalue h

/-! ## The loop -/

/-- the partial product that one round of the loop leaves -/
theorem partial_product {x : ℚ} {j k n : Nat} {result square : Fraction} (hresult : result.Represents (x ^ j))
    (hsquare : square.HasValue (x ^ k)) (hfits : FitsRat (x ^ (j + k * (n % 2)))) :
    (if n % 2 = 1 then mulExact? result square else some result) =
        some (if n % 2 = 1 then result.mul square else result) ∧
      (if n % 2 = 1 then result.mul square else result).Represents (x ^ (j + k * (n % 2))) := by
  by_cases hodd : n % 2 = 1
  · rw [hodd, Nat.mul_one, pow_add] at hfits
    rw [if_pos hodd, if_pos hodd, hodd, Nat.mul_one, pow_add]
    exact mulExact?_eq hresult.hasValue hsquare hfits
  · have heven : n % 2 = 0 := by omega
    rw [if_neg hodd, if_neg hodd, heven, Nat.mul_zero, Nat.add_zero]
    exact ⟨rfl, hresult⟩

/-- from x^j and x^k the loop comes to x^(j + k * n), and refuses nothing on the way if that power fits -/
theorem powerLoopBy_exact {x : ℚ} {j k n : Nat} {result square : Fraction} (hresult : result.Represents (x ^ j))
    (hsquare : square.HasValue (x ^ k)) (hfits : FitsRat (x ^ (j + k * n))) :
    powerLoopBy mulExact? result square n = some (powerLoop result square n) ∧
      (powerLoop result square n).Represents (x ^ (j + k * n)) := by
  induction n using Nat.strongRecOn generalizing j k result square with
  | ind n ih =>
    rw [powerLoopBy, powerLoop]
    by_cases hn : n = 0
    · subst hn
      exact ⟨rfl, hresult⟩
    have hsplit : j + k * (n % 2) + (k + k) * (n / 2) = j + k * n := by
      calc j + k * (n % 2) + (k + k) * (n / 2) = j + k * (n % 2 + 2 * (n / 2)) := by ring
        _ = j + k * n := by rw [Nat.mod_add_div]
    obtain ⟨hproduct, hresult'⟩ := partial_product hresult hsquare
      (hfits.pow_of_le (by rw [← hsplit]; exact Nat.le_add_right _ _))
    rw [if_neg hn, if_neg hn, hproduct]
    dsimp only [Option.bind_some]
    by_cases hlast : n / 2 = 0
    · rw [hlast, Nat.mul_zero, Nat.add_zero] at hsplit
      rw [if_pos hlast, if_pos hlast, ← hsplit]
      exact ⟨rfl, hresult'⟩
    · -- there is a further round, so the next square is at most the power itself
      have hle : k + k ≤ j + k * n := by
        rw [← hsplit]
        exact le_add_left (Nat.le_mul_of_pos_right _ (Nat.pos_of_ne_zero hlast))
      have hnext := hfits.pow_of_le hle
      rw [pow_add] at hnext
      obtain ⟨hmul, hsquare'⟩ := mulExact?_eq hsquare hsquare hnext
      rw [← pow_add] at hsquare'
      rw [if_neg hlast, if_neg hlast, hmul, Option.bind_some, ← hsplit]
      rw [← hsplit] at hfits
      exact ih (n / 2) (by omega) hresult' hsquare'.hasValue hfits

/-! ## Exponents of either sign -/

/-- the number whose powers the loop computes: a negative exponent is a positive one of the reciprocal -/
def powerBase (x : ℚ) (e : Int64) : ℚ := if e < 0 then x⁻¹ else x

theorem powerBase_pow (x : ℚ) (e : Int64) : powerBase x e ^ e.toInt.natAbs = x ^ e.toInt := by
  have hsign : e < 0 ↔ e.toInt < 0 := Int64.lt_iff_toInt_lt
  unfold powerBase
  by_cases hneg : e < 0
  · have hneg' := hsign.1 hneg
    rw [if_pos hneg, ← zpow_natCast, inv_zpow', Int.ofNat_natAbs_of_nonpos (by omega), neg_neg]
  · have hpos := hsign.not.1 hneg
    rw [if_neg hneg, ← zpow_natCast, Int.natAbs_of_nonneg (by omega)]

/-- the loop starts from the base or its reciprocal, which needs no approximation where the power needs none -/
theorem first_square {base : Fraction} {e : Int64} (hden : base.den ≠ 0) (hnonzero : e < 0 → base.num ≠ 0)
    (hfits : FitsRat (powerBase base.value e ^ e.toInt.natAbs)) :
    (if e < 0 then reciprocalExact? base else some base) = some (if e < 0 then base.reciprocal else base) ∧
      (if e < 0 then base.reciprocal else base).HasValue (powerBase base.value e) := by
  unfold powerBase at hfits ⊢
  by_cases hneg : e < 0
  · have hpositive : 1 ≤ e.toInt.natAbs := by
      have hneg' : e.toInt < 0 := Int64.lt_iff_toInt_lt.1 hneg
      omega
    have hinverse := hfits.pow_of_le hpositive
    rw [if_pos hneg, pow_one] at hinverse
    obtain ⟨hreciprocal, hrepresents⟩ := reciprocalExact?_eq ⟨hden, rfl⟩ (hnonzero hneg) hinverse
    rw [if_pos hneg, if_pos hneg, if_pos hneg]
    exact ⟨hreciprocal, hrepresents.hasValue⟩
  · rw [if_neg hneg, if_neg hneg, if_neg hneg]
    exact ⟨rfl, hden, rfl⟩

/-- **Whole powers are exact.** Let the base have a nonzero denominator, and not be zero if the exponent is negative. If
the power is a rational number with a numerator and a denominator of 64 bits, it is computed exactly. The computation is
that of `powerBy`, and no square, product or reciprocal in it is approximated. -/
theorem whole_powers_exact {base exponent : Fraction} (hden : base.den ≠ 0) (hwhole : exponent.isIntegral = true)
    (hnonzero : exponent.num < 0 → base.num ≠ 0) (hnum : fits (base.value ^ exponent.num.toInt).num = true)
    (hden' : fits (base.value ^ exponent.num.toInt).den = true) :
    (base.power exponent).num.toInt = (base.value ^ exponent.num.toInt).num ∧
      (base.power exponent).den.toInt = (base.value ^ exponent.num.toInt).den ∧
      powerBy (fun p q => some (p.mul q)) (fun q => some q.reciprocal) base exponent.num = some (base.power exponent) ∧
      powerBy mulExact? reciprocalExact? base exponent.num = some (base.power exponent) := by
  have hfits : FitsRat (powerBase base.value exponent.num ^ exponent.num.toInt.natAbs) := by
    rw [powerBase_pow]
    exact ⟨hnum, hden'⟩
  obtain ⟨hstart, hsquare⟩ := first_square hden hnonzero hfits
  have hpower : base.power exponent =
      powerLoop (ofInteger 1) (if exponent.num < 0 then base.reciprocal else base) exponent.num.toInt.natAbs :=
    if_pos hwhole
  -- the loop starts from x^0 and x^1
  have hone : (ofInteger 1).Represents (powerBase base.value exponent.num ^ 0) := by
    rw [pow_zero]
    exact ⟨rfl, rfl⟩
  rw [← pow_one (powerBase _ _)] at hsquare
  rw [← Nat.one_mul exponent.num.toInt.natAbs, ← Nat.zero_add (1 * _)] at hfits
  have hloop := powerLoopBy_exact hone hsquare hfits
  rw [Nat.zero_add, Nat.one_mul, powerBase_pow, ← hpower] at hloop
  refine ⟨hloop.2.1, hloop.2.2, powerBy_total base hwhole, ?_⟩
  unfold powerBy
  rw [hstart]
  exact hloop.1

/-- (-2)^63 is the lowest 64-bit integer, and (2/3)^-39 has a numerator of 62 bits -/
theorem whole_powers_exact_limits :
    (make (-2) 1).den ≠ 0 ∧ (ofInteger 63).isIntegral = true ∧
      (make (-2) 1).value ^ (ofInteger 63).num.toInt = (-0x8000000000000000 : Int) ∧
      ((make (-2) 1).power (ofInteger 63)).num.toInt = -0x8000000000000000 ∧
      powerBy mulExact? reciprocalExact? (make (-2) 1) 63 = some ((make (-2) 1).power (ofInteger 63)) ∧
      (make 2 3).den ≠ 0 ∧ (make 2 3).num ≠ 0 ∧ (ofInteger (-39)).isIntegral = true ∧
      (make 2 3).value ^ (ofInteger (-39)).num.toInt = mkRat 4052555153018976267 549755813888 ∧
      ((make 2 3).power (ofInteger (-39))).num.toInt = 4052555153018976267 ∧
      ((make 2 3).power (ofInteger (-39))).den.toInt = 549755813888 := by
  have hlowest : (make (-2) 1).value ^ (ofInteger 63).num.toInt = (-0x8000000000000000 : Int) := by decide +kernel
  have hinverse : (make 2 3).value ^ (ofInteger (-39)).num.toInt = mkRat 4052555153018976267 549755813888 := by
    decide +kernel
  have hparts := whole_powers_exact (by decide : (make (-2) 1).den ≠ 0) (by decide : (ofInteger 63).isIntegral = true)
    (fun h => absurd h (by decide))
  rw [hlowest] at hparts
  have hparts' := whole_powers_exact (by decide : (make 2 3).den ≠ 0) (by decide : (ofInteger (-39)).isIntegral = true)
    (fun _ => by decide)
  rw [hinverse] at hparts'
  obtain ⟨hnum, -, -, hexact⟩ := hparts (by decide) (by decide)
  obtain ⟨hnum', hden', -, -⟩ := hparts' (by decide +kernel) (by decide +kernel)
  refine ⟨by decide, by decide, hlowest, hnum, hexact, by decide, by decide, by decide, hinverse, ?_, ?_⟩
  · rw [hnum']
    decide +kernel
  · rw [hden']
    decide +kernel

end ReversePolish.Fraction
