/-
Classes of doubles, and their order on significands and exponents.

Every double is finite, an infinity or NaN (`isInf_eq`), and equals itself unless it is NaN (`beq_self`). `unpack_eq`
reads a finite double as `significand` and `exponent` give it. From there `positive_of_not_le` and
`scaled_le_of_not_lt` say what comparisons with zero and with a positive double mean, and `one_le_ceiled` and
`ceiled_le` bound the least whole number above a positive double.
-/
import ReversePolish.Number.Rank

namespace ReversePolish.Double

open Float.Model Float.Model.UnpackedFloat

/-! ## Finite doubles -/

theorem significand_lt (x : Float) : significand x < 2 * leadingBit := by
  have hmod : x.toBits.toNat % leadingBit < leadingBit := Nat.mod_lt _ (by decide)
  unfold significand leadingBit at *
  dsimp only
  split <;> omega

/-- a finite double is zero, or its significand times two to its exponent -/
theorem unpack_eq {x : Float} (hx : x.isFinite = true) :
    (significand x = 0 ∧ ∃ s, x.toModel.unpack = .zero s) ∨
      ∃ hpos : 0 < significand x, x.toModel.unpack = .finite (sign x) (significand x) (exponent x) hpos := by
  change x.toModel.unpack.isFinite = true at hx
  have hunpacks := unpacks x
  generalize x.toModel.unpack = u at *
  cases hunpacks with
  | zero s h =>
    obtain ⟨hmagnitude, -, -⟩ := magnitude_eq x
    refine .inl ⟨?_, s, rfl⟩
    unfold significand leadingBit at *
    dsimp only
    split <;> omega
  | finite hpos => exact .inr ⟨hpos, rfl⟩
  | infinity => cases hx
  | notANumber => cases hx

/-! ## Classes -/

/-- an infinity is what is neither a number nor NaN -/
theorem isInf_eq (x : Float) : x.isInf = (!x.isFinite && !x.isNaN) := by
  change x.toModel.unpack.isInf = (!x.toModel.unpack.isFinite && !x.toModel.unpack.isNaN)
  cases x.toModel.unpack <;> rfl

theorem isNaN_of_isFinite {x : Float} (h : x.isFinite = true) : x.isNaN = false := by
  change x.toModel.unpack.isFinite = true at h
  change x.toModel.unpack.isNaN = false
  cases hx : x.toModel.unpack with
  | notANumber =>
    rw [hx] at h
    cases h
  | _ => rfl

theorem beq_self {x : Float} (h : x.isNaN = false) : (x == x) = true := by
  change x.toModel.unpack.isNaN = false at h
  change (x.toModel.unpack.compare x.toModel.unpack == some .eq) = true
  cases hx : x.toModel.unpack with
  | notANumber =>
    rw [hx] at h
    cases h
  | infinity s => cases s <;> rfl
  | zero s => cases s <;> rfl
  | finite s n e hn =>
    have horder : (compare e e).then (compare n n) = .eq := by
      have he : compare e e = .eq := Std.ReflCmp.compare_self
      have hn : compare n n = .eq := Std.ReflCmp.compare_self
      rw [he, hn]
      rfl
    cases s with
    | negative =>
      change (some ((compare e e).then (compare n n)).swap == some .eq) = true
      rw [horder]
      rfl
    | positive =>
      change (some ((compare e e).then (compare n n)) == some .eq) = true
      rw [horder]
      rfl

theorem isNaN_nan : nan.isNaN = true := by decide +kernel

/-- NaN equals nothing -/
theorem beq_of_isNaN {x : Float} (h : x.isNaN = true) (y : Float) : (x == y) = false := by
  change x.toModel.unpack.isNaN = true at h
  change (x.toModel.unpack.compare y.toModel.unpack == some .eq) = false
  cases hx : x.toModel.unpack with
  | notANumber => rfl
  | _ =>
    rw [hx] at h
    cases h

/-! ## Comparisons -/

/-- a finite double that is not at most zero -/
theorem positive_of_not_le {x : Float} (hx : x.isFinite = true) (h : ¬ x ≤ 0.0) :
    negative x = false ∧ ∃ hpos : 0 < significand x,
      x.toModel.unpack = .finite .positive (significand x) (exponent x) hpos := by
  obtain ⟨z, hzero⟩ : ∃ z, (0.0 : Float).toModel.unpack = .zero z := by
    rcases unpack_eq (x := 0.0) (by decide +kernel) with ⟨-, hz⟩ | ⟨hpos, -⟩
    · exact hz
    · exact absurd hpos (by decide +kernel)
  have hle : ¬ x.toModel.unpack.le (0.0 : Float).toModel.unpack = true := by
    intro hle
    apply h
    change decide (x.toModel ≤ (0.0 : Float).toModel) = true
    exact decide_eq_true hle
  rw [hzero] at hle
  rcases unpack_eq hx with ⟨-, s, hs⟩ | ⟨hpos, hs⟩
  · rw [hs] at hle
    exact absurd rfl hle
  · cases hneg : negative x with
    | true =>
      rw [hs, sign, hneg] at hle
      exact absurd rfl hle
    | false =>
      rw [sign, hneg] at hs
      exact ⟨rfl, hpos, hs⟩

/-- a positive double that is not above another one: its exponent is lower, or it has the same one and a significand
that is not above -/
theorem scaled_le_of_not_lt {x y : Float} {hx : 0 < significand x} {hy : 0 < significand y}
    (hxs : x.toModel.unpack = .finite .positive (significand x) (exponent x) hx)
    (hys : y.toModel.unpack = .finite .positive (significand y) (exponent y) hy) (h : ¬ y < x) :
    exponent x < exponent y ∨ exponent x = exponent y ∧ significand x ≤ significand y := by
  have hlt : ¬ y.toModel.unpack.lt x.toModel.unpack = true := by
    intro hlt
    apply h
    change decide (y.toModel < x.toModel) = true
    exact decide_eq_true hlt
  have hcompare : ¬ (compare (exponent y) (exponent x)).then (compare (significand y) (significand x)) = .lt := by
    intro hlex
    apply hlt
    rw [hxs, hys]
    change (some _ == some Ordering.lt) = true
    rw [hlex]
    rfl
  rw [Ordering.then_eq_lt, Int.compare_eq_lt, Int.compare_eq_eq, Nat.compare_eq_lt] at hcompare
  omega

/-! ## The least whole number above -/

/-- the least integer above a positive double with a fractional part of k bits -/
theorem ceiled_eq {x : Float} (hneg : negative x = false) {k : Nat} (hk : 0 < k) (he : exponent x = -(k : Int)) :
    ceiled x =
      if significand x % Nat.pow 2 k = 0 then ((significand x / Nat.pow 2 k : Nat) : Int)
      else (significand x / Nat.pow 2 k : Nat) + 1 := by
  have hlow : ¬ 0 ≤ exponent x := by omega
  have hshift : (-exponent x).toNat = k := by omega
  have htrunc : truncated x = ((significand x / Nat.pow 2 k : Nat) : Int) := by
    simp only [truncated, hneg, whole, if_neg hlow, hshift]
    rfl
  have hwhole : isWhole x = (significand x % Nat.pow 2 k == 0) := by
    simp only [isWhole, hlow, decide_false, Bool.false_or, hshift]
  rw [ceiled, hneg, hwhole, htrunc, Bool.or_false]
  by_cases h : significand x % Nat.pow 2 k = 0
  · rw [if_pos h, if_pos (by simpa using h)]
  · rw [if_neg h, if_neg (by simpa using h)]

theorem one_le_ceiled {x : Float} (hneg : negative x = false) (hpos : 0 < significand x) {k : Nat} (hk : 0 < k)
    (he : exponent x = -(k : Int)) : 1 ≤ ceiled x := by
  rw [ceiled_eq hneg hk he]
  split
  · rename_i h
    have hle : Nat.pow 2 k ≤ significand x := Nat.le_of_dvd hpos (Nat.dvd_of_mod_eq_zero h)
    have hdiv : 0 < significand x / Nat.pow 2 k := Nat.div_pos hle (Nat.two_pow_pos k)
    omega
  · exact Int.le_add_of_nonneg_left (Int.natCast_nonneg _)

theorem ceiled_le {x : Float} (hneg : negative x = false) {k n : Nat} (hk : 0 < k) (he : exponent x = -(k : Int))
    (h : significand x ≤ n * Nat.pow 2 k) : ceiled x ≤ n := by
  have hdiv : significand x / Nat.pow 2 k ≤ n := Nat.div_le_of_le_mul (by rwa [Nat.mul_comm])
  rw [ceiled_eq hneg hk he]
  split
  · omega
  · rename_i hrest
    -- with a fractional part the significand is not the whole multiple that bounds it
    have hne : significand x ≠ n * Nat.pow 2 k := fun heq => hrest (by rw [heq, Nat.mul_mod_left])
    have hlt : significand x / Nat.pow 2 k < n := Nat.div_lt_of_lt_mul (by rw [Nat.mul_comm]; omega)
    omega

end ReversePolish.Double
