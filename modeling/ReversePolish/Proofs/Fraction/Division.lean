/-
Division of fractions.

A quotient is the product with the reciprocal, and the reciprocal is a fraction of its own. It is exact unless its
denominator, the numerator of the divisor without its sign, is 2^63 (`fits_inverse_iff`). In that one case it is
approximated before the product is taken, and no approximation of it has the right value (`value_ne_inverse`). Result:
- `division_exact_unless_lowest`: a quotient of 64-bit integers is exact, unless the numerator of the divisor is the
  lowest 64-bit integer. Then it is wrong for all dividends but zero whose product with the approximated reciprocal
  needs no approximation itself.
-/
import ReversePolish.Proofs.Fraction.Arithmetic

namespace ReversePolish.Fraction

variable {p q r : Fraction}

/-! ## Values -/

theorem toInt_ne_zero {n : Int64} (h : n ≠ 0) : n.toInt ≠ 0 := fun hzero => h (Int64.toInt_inj.1 hzero)

/-- a fraction has the numerator and the denominator of its value -/
theorem value_parts (hden : q.den ≠ 0) : q.num.toInt = q.value.num ∧ q.den.toInt = q.value.den := by
  have hlowest := lowest_eq_rat (n := q.num.toInt) (toInt_ne_zero hden)
  rwa [q.canonical.lowest_eq] at hlowest

theorem value_of_parts {x : ℚ} (hnum : q.num.toInt = x.num) (hden : q.den.toInt = x.den) : q.value = x := by
  unfold value
  rw [hnum, hden]
  exact x.num_div_den

theorem value_ne_zero (hnum : q.num ≠ 0) (hden : q.den ≠ 0) : q.value ≠ 0 :=
  div_ne_zero (Int.cast_ne_zero.2 (toInt_ne_zero hnum)) (Int.cast_ne_zero.2 (toInt_ne_zero hden))

/-! ## Reciprocals -/

section Reciprocal

variable (hden : q.den ≠ 0) (hnum : q.num ≠ 0)

include hden hnum

theorem inverse_den : (q.value⁻¹.den : Int) = q.num.toInt.natAbs := by
  rw [Rat.den_inv_of_ne_zero (value_ne_zero hnum hden), ← (value_parts hden).1]

theorem inverse_num : q.value⁻¹.num.natAbs = q.den.toInt.natAbs := by
  have hsign : q.value.num.sign.natAbs = 1 := by
    rw [← (value_parts hden).1]
    exact Int.natAbs_sign_of_ne_zero (toInt_ne_zero hnum)
  rw [Rat.num_inv, ← (value_parts hden).2, Int.natAbs_mul, hsign, Nat.one_mul]

/-- the reciprocal is a fraction of 64-bit integers, unless it has the denominator 2^63 -/
theorem fits_inverse_iff : fits q.value⁻¹.num = true ∧ fits q.value⁻¹.den = true ↔ q.num ≠ Int64.minValue := by
  have hinverse := inverse_den hden hnum
  have hinverse' := inverse_num hden hnum
  have hbound := q.den_le
  have hlow := q.num.le_toInt
  have hhigh := q.num.toInt_lt
  have hlowest : q.num = Int64.minValue ↔ q.num.toInt = -0x8000000000000000 := Int64.toInt_inj.symm
  rw [fits_iff, fits_iff, hinverse, Ne, hlowest]
  omega

/-- no fraction has the reciprocal of a fraction over the lowest numerator as its value -/
theorem value_ne_inverse (hlowest : q.num = Int64.minValue) (hrden : r.den ≠ 0) :
    r.value ≠ q.value⁻¹ := by
  intro hsame
  obtain ⟨hrnum, hrden'⟩ := value_parts hrden
  refine (fits_inverse_iff hden hnum).1 ?_ hlowest
  rw [← hsame, ← hrnum, ← hrden']
  exact ⟨fits_toInt r.num, fits_toInt r.den⟩

/-- a reciprocal that fits has the right value -/
theorem value_reciprocal (hhigher : q.num ≠ Int64.minValue) :
    q.reciprocal.den ≠ 0 ∧ q.reciprocal.value = q.value⁻¹ := by
  obtain ⟨hfits, hfits'⟩ := (fits_inverse_iff hden hnum).2 hhigher
  obtain ⟨hnum', hden'⟩ := (exactWhereFits hden hden).reciprocal hnum hfits hfits'
  refine ⟨fun hzero => ?_, value_of_parts hnum' hden'⟩
  rw [hzero] at hden'
  exact q.value⁻¹.den_ne_zero (Int.natCast_eq_zero.1 hden'.symm)

end Reciprocal

/-! ## Quotients -/

/-- the product is one of 64-bit integers in lowest terms -/
def ProductFits (p q : Fraction) : Prop :=
  (fits (lowest (p.num.toInt * q.num.toInt) (p.den.toInt * q.den.toInt)).1 &&
    fits (lowest (p.num.toInt * q.num.toInt) (p.den.toInt * q.den.toInt)).2) = true

/-- such a product is not approximated -/
theorem ProductFits.mul_parts (h : ProductFits p q) (hp : p.den ≠ 0) (hq : q.den ≠ 0) :
    (p.mul q).num.toInt = (p.value * q.value).num ∧ (p.mul q).den.toInt = (p.value * q.value).den := by
  have hvalue : ((p.num.toInt * q.num.toInt : Int) : ℚ) / ((p.den.toInt * q.den.toInt : Int) : ℚ) =
      p.value * q.value := by
    push_cast
    exact (div_mul_div_comm _ _ _ _).symm
  obtain ⟨hnum, hden⟩ := lowest_eq_rat (n := p.num.toInt * q.num.toInt)
    (mul_ne_zero (toInt_ne_zero hp) (toInt_ne_zero hq))
  rw [hvalue] at hnum hden
  unfold ProductFits at h
  rw [hnum, hden, Bool.and_eq_true] at h
  exact (exactWhereFits hp hq).mul h.1 h.2

/-- a zero denominator stays, over a numerator that fits -/
theorem ofWide_zero (n : Int) : (ofWide n 0).den = 0 := by
  obtain ⟨-, hgcd⟩ := inLowestTerms_lowest n 0
  obtain ⟨-, hden⟩ := natAbs_lowest_le n 0
  have hzero : (lowest n 0).2 = 0 := by omega
  rw [hzero, Int.natAbs_zero, Nat.gcd_zero_right] at hgcd
  have hfits : fits (lowest n 0).1 = true := (fits_iff _).2 (by omega)
  have hfits' : fits 0 = true := by decide
  rw [ofWide_of_fits (by rw [hzero, hfits, hfits']; rfl)]
  simp only [shortened, hzero]
  rfl

/-- a product with an infinite fraction is infinite, or 0/0 -/
theorem mul_den_eq_zero (p : Fraction) (hq : q.den = 0) : (p.mul q).den = 0 := by
  unfold mul
  rw [hq, Int64.toInt_zero, Int.mul_zero]
  exact ofWide_zero _

/-- **Quotients of fractions.** Let p and q have nonzero denominators and q not be zero. Unless the numerator of q is
the lowest 64-bit integer, the quotient is the exact rational number whenever that has a numerator and a denominator of
64 bits. If it is the lowest one, and the product of p with the reciprocal is not approximated a second time, the
quotient is exact for p = 0 and a finite reciprocal only. -/
theorem division_exact_unless_lowest (hp : p.den ≠ 0) (hden : q.den ≠ 0) (hnum : q.num ≠ 0) :
    (q.num ≠ Int64.minValue → (p.div q).Exactly (p.value / q.value)) ∧
    (q.num = Int64.minValue → ProductFits p q.reciprocal →
      ((p.div q).num.toInt = (p.value / q.value).num ∧ (p.div q).den.toInt = (p.value / q.value).den ↔
        p.num = 0 ∧ q.reciprocal.den ≠ 0)) := by
  refine ⟨fun hhigher => ?_, fun hlowest hfits => ⟨?_, ?_⟩⟩
  · obtain ⟨hden', hvalue⟩ := value_reciprocal hden hnum hhigher
    have hexact := (exactWhereFits hp hden').mul
    rwa [hvalue, ← div_eq_mul_inv] at hexact
  · rintro ⟨hdivnum, hdivden⟩
    -- an infinite reciprocal would make the quotient infinite
    have hden' : q.reciprocal.den ≠ 0 := by
      intro hzero
      have hinfinite : (p.div q).den = 0 := mul_den_eq_zero p hzero
      rw [hinfinite] at hdivden
      exact (p.value / q.value).den_ne_zero (Int.natCast_eq_zero.1 hdivden.symm)
    refine ⟨by_contra fun hpnum => ?_, hden'⟩
    -- p cancels, so the approximated reciprocal would have the right value
    obtain ⟨hmulnum, hmulden⟩ := hfits.mul_parts hp hden'
    have hproduct : p.value * q.reciprocal.value = p.value * q.value⁻¹ := by
      rw [← value_of_parts hmulnum hmulden, ← div_eq_mul_inv]
      exact value_of_parts hdivnum hdivden
    exact value_ne_inverse hden hnum hlowest hden'
      (mul_left_cancel₀ (value_ne_zero hpnum hp) hproduct)
  · rintro ⟨hpnum, hden'⟩
    have hzero : p.value = 0 := by
      unfold value
      rw [hpnum]
      exact zero_div _
    have hparts := hfits.mul_parts hp hden'
    rwa [hzero, zero_mul, ← zero_div q.value, ← hzero] at hparts

/-- quotients at both limits: (2^63 - 1) / ((2^63 - 1)/2) = 2, and -2^63 / -2^63 is not 1 -/
theorem division_exact_unless_lowest_limits :
    (make 0x7fffffffffffffff 1).den ≠ 0 ∧ (make 0x7fffffffffffffff 2).den ≠ 0 ∧
      (make 0x7fffffffffffffff 2).num ≠ 0 ∧
      (make 0x7fffffffffffffff 2).num ≠ Int64.minValue ∧
      (((make 0x7fffffffffffffff 1).div (make 0x7fffffffffffffff 2)).num.toInt = 2 ∧
        ((make 0x7fffffffffffffff 1).div (make 0x7fffffffffffffff 2)).den.toInt = 1) ∧
      (make Int64.minValue 1).num = Int64.minValue ∧
      ProductFits (make Int64.minValue 1) (make Int64.minValue 1).reciprocal ∧
      ¬ (((make Int64.minValue 1).div (make Int64.minValue 1)).num.toInt = 1 ∧
        ((make Int64.minValue 1).div (make Int64.minValue 1)).den.toInt = 1) := by
  have hvalue : (make 0x7fffffffffffffff 1).value / (make 0x7fffffffffffffff 2).value = (2 : Int) := by decide +kernel
  have hexact := (division_exact_unless_lowest (p := make 0x7fffffffffffffff 1)
    (q := make 0x7fffffffffffffff 2) (by decide) (by decide) (by decide)).1 (by decide)
  rw [hvalue] at hexact
  have hvalue' : (make Int64.minValue 1).value / (make Int64.minValue 1).value = (1 : Int) := by decide +kernel
  have hfits : ProductFits (make Int64.minValue 1) (make Int64.minValue 1).reciprocal := by
    unfold ProductFits
    decide +kernel
  have hwrong := (division_exact_unless_lowest (p := make Int64.minValue 1) (q := make Int64.minValue 1) (by decide)
    (by decide) (by decide)).2 (by decide) hfits
  rw [hvalue'] at hwrong
  exact ⟨by decide, by decide, by decide, by decide, hexact (by decide) (by decide), by decide, hfits,
    fun h => absurd (hwrong.1 h).1 (by decide)⟩

/-- -2^63 divided by itself is 1, but the quotient is 0: the reciprocal of -2^63 is approximated by 0 -/
theorem lowest_over_itself :
    (make Int64.minValue 1).den ≠ 0 ∧ (make Int64.minValue 1).num ≠ 0 ∧
      (make Int64.minValue 1).value / (make Int64.minValue 1).value = (1 : Int) ∧ fits ((1 : Int) : ℚ).num = true ∧
      fits ((1 : Int) : ℚ).den = true ∧ (make Int64.minValue 1).div (make Int64.minValue 1) = .mk 0 1 :=
  ⟨by decide, by decide, by decide +kernel, by decide, by decide, by decide +kernel⟩

end ReversePolish.Fraction
