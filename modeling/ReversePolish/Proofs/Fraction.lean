/-
Parts of a fraction.

A fraction is in lowest terms by its type. So it is made of its own numerator and denominator (`make_parts`), its
denominator is at least zero (`den_le`), and only 0/0 has parts with a common divisor other than one (`gcd_eq`).
-/
import ReversePolish.Fraction

namespace ReversePolish.Fraction

theorem fits_toInt (n : Int64) : fits n.toInt = true := (fits_iff _).2 ⟨n.le_toInt, n.toInt_lt⟩

/-- a pair in lowest terms stays -/
theorem InLowestTerms.lowest_eq {n d : Int} (h : InLowestTerms n d) : lowest n d = (n, d) := by
  have hsign : ¬ d < 0 := by
    have := h.nonneg
    omega
  have hgcd : ¬ 1 < Nat.gcd n.natAbs d.natAbs := Nat.not_lt.2 h.gcd
  simp only [lowest, if_neg hsign, if_neg hgcd]

/-- a pair that fits in lowest terms is not approximated -/
theorem ofWide_of_fits {n d : Int} (h : (fits (lowest n d).1 && fits (lowest n d).2) = true) :
    ofWide n d = shortened n d h := dif_pos h

variable (q : Fraction)

/-- **Parts of a fraction.** A fraction is made of its own numerator and denominator. -/
theorem make_parts : make q.num q.den = q := by
  have hlowest := q.canonical.lowest_eq
  have hfits : (fits (lowest q.num.toInt q.den.toInt).1 && fits (lowest q.num.toInt q.den.toInt).2) = true := by
    rw [hlowest, fits_toInt, fits_toInt]
    rfl
  rw [make, ofWide_of_fits hfits]
  ext1 <;> simp only [shortened, hlowest, Int64.ofInt_toInt]

/-- a denominator is not negative, so it is one smaller than a numerator can be -/
theorem den_le : q.den.toInt.natAbs ≤ 0x7fffffffffffffff := by
  have hnonneg := q.canonical.nonneg
  have hhigh := q.den.toInt_lt
  omega

/-- only 0/0 has no greatest common divisor -/
theorem gcd_eq (hq : q ≠ .mk 0 0) : Nat.gcd q.num.toInt.natAbs q.den.toInt.natAbs = 1 := by
  refine Nat.le_antisymm q.canonical.gcd (Nat.pos_of_ne_zero fun hzero => hq ?_)
  obtain ⟨hnum, hden⟩ := Nat.gcd_eq_zero_iff.1 hzero
  exact Fraction.ext (Int64.toInt_inj.1 (Int.natAbs_eq_zero.1 hnum)) (Int64.toInt_inj.1 (Int.natAbs_eq_zero.1 hden))

end ReversePolish.Fraction
