/-
The order of the doubles, as whole numbers.

`rank` numbers the doubles in increasing order, both zeros at 0. The bits of a double below its sign bit are its
magnitude: 0 for a zero, `topMagnitude` for an infinity, above it for NaN, and in between for the other numbers.
`unpacks` reads these classes off the bits, and from it:
- `compare_eq`: two doubles that are not NaN compare as their ranks do;
- `lt_iff_rank_lt`: for doubles that are not NaN, x is below y exactly when its rank is;
- `rank_lt_of_lt`: a counter that moves up gains at least one rank.
-/
import ReversePolish.Number.Double

namespace ReversePolish.Double

open Float.Model Float.Model.UnpackedFloat

/-- the bits below the sign bit -/
def magnitude (x : Float) : Nat := x.toBits.toNat % signBit

/-- the magnitude of an infinity -/
def topMagnitude : Nat := 2047 * leadingBit

/-- position in the order of the doubles, both zeros at 0 -/
def rank (x : Float) : Int := if negative x then -(magnitude x : Int) else magnitude x

/-- the sign as the model of doubles names it -/
def sign (x : Float) : Sign := if negative x then .negative else .positive

/-! ## Fields of the bits -/

theorem unpackMantissa_toNat (x : Float) :
    (@unpackMantissa Format.binary64 x.toBits.toBitVec).toNat = x.toBits.toNat % leadingBit := by
  simp [unpackMantissa, leadingBit, Format.binary64]

theorem unpackExponent_toNat (x : Float) :
    (@unpackExponent Format.binary64 x.toBits.toBitVec).toNat = exponentField x := by
  simp [unpackExponent, exponentField, leadingBit, Format.binary64, Nat.shiftRight_eq_div_pow]

theorem unpackSign_toNat (x : Float) :
    (@unpackSign Format.binary64 x.toBits.toBitVec).toNat = x.toBits.toNat / signBit := by
  have hbits := x.toBits.toNat_lt
  change x.toBits.toNat >>> 63 % 2 = _
  rw [Nat.shiftRight_eq_div_pow, signBit]
  omega

theorem ofBitVec_unpackSign (x : Float) : Sign.ofBitVec (@unpackSign Format.binary64 x.toBits.toBitVec) = sign x := by
  have hzero : @unpackSign Format.binary64 x.toBits.toBitVec = 0#1 ↔ ¬ negative x = true := by
    rw [← BitVec.toNat_inj, unpackSign_toNat, negative, decide_eq_true_eq]
    have hbits := x.toBits.toNat_lt
    simp only [signBit, BitVec.toNat_ofNat]
    omega
  unfold sign Sign.ofBitVec
  by_cases h : negative x = true
  · rw [if_pos h, if_neg fun h' => hzero.1 h' h]
  · rw [if_neg h, if_pos (hzero.2 h)]

/-- the magnitude is the exponent field followed by the fraction -/
theorem magnitude_eq (x : Float) :
    magnitude x = exponentField x * leadingBit + x.toBits.toNat % leadingBit ∧ exponentField x ≤ 2047 ∧
      x.toBits.toNat % leadingBit < leadingBit := by
  have hbits := x.toBits.toNat_lt
  simp only [magnitude, exponentField, signBit, leadingBit]
  omega

/-! ## Classes -/

/-- the classes of doubles, each with its magnitudes -/
inductive Unpacks (x : Float) : UnpackedFloat → Prop
  | zero (s : Sign) (h : magnitude x = 0) : Unpacks x (.zero s)
  | finite (hpos : 0 < significand x) (h : 0 < magnitude x) (below : magnitude x < topMagnitude) :
    Unpacks x (.finite (sign x) (significand x) (exponent x) hpos)
  | infinity (h : magnitude x = topMagnitude) : Unpacks x (.infinity (sign x))
  | notANumber : Unpacks x .notANumber

theorem Unpacks.ofFinite {x : Float} {s : Sign} {n : Nat} {e : Int} {hn : 0 < n} (hsign : s = sign x)
    (hsignificand : n = significand x) (hexponent : e = exponent x) (hfield : exponentField x ≠ 2047) :
    Unpacks x (.finite s n e hn) := by
  subst hsign hsignificand hexponent
  obtain ⟨hmagnitude, hle, hfraction⟩ := magnitude_eq x
  have hpos : 0 < magnitude x := by
    rw [hmagnitude]
    unfold significand at hn
    unfold leadingBit at *
    dsimp only at hn
    split at hn <;> omega
  refine .finite hn hpos ?_
  rw [hmagnitude]
  unfold topMagnitude leadingBit at *
  omega

/-- how the bits of a double are read -/
theorem unpacks (x : Float) : Unpacks x x.toModel.unpack := by
  have hmantissa := unpackMantissa_toNat x
  have hexponent := unpackExponent_toNat x
  have hsign := ofBitVec_unpackSign x
  obtain ⟨hmagnitude, -, hfraction⟩ := magnitude_eq x
  change Unpacks x (UnpackedFloat.unpack Format.binary64 x.toBits.toBitVec)
  unfold UnpackedFloat.unpack
  dsimp only
  by_cases htop : @unpackExponent Format.binary64 x.toBits.toBitVec = -1#_
  · have hfield : exponentField x = 2047 := by rw [← hexponent, htop]; rfl
    rw [if_pos htop]
    by_cases hzero : @unpackMantissa Format.binary64 x.toBits.toBitVec = 0#_
    · have hfraction' : x.toBits.toNat % leadingBit = 0 := by rw [← hmantissa, hzero]; rfl
      rw [if_pos hzero, hsign]
      exact .infinity (by rw [hmagnitude, hfield, hfraction']; rfl)
    · rw [if_neg hzero]
      exact .notANumber
  · have hfield : exponentField x ≠ 2047 := by
      rw [← hexponent]
      exact fun h => htop (BitVec.eq_of_toNat_eq h)
    rw [if_neg htop]
    by_cases hlow : @unpackExponent Format.binary64 x.toBits.toBitVec = 0#_
    · have hfield' : exponentField x = 0 := by rw [← hexponent, hlow]; rfl
      rw [if_pos hlow]
      by_cases hzero : @unpackMantissa Format.binary64 x.toBits.toBitVec = 0#_
      · have hfraction' : x.toBits.toNat % leadingBit = 0 := by rw [← hmantissa, hzero]; rfl
        rw [dif_pos hzero]
        exact .zero _ (by rw [hmagnitude, hfield', hfraction']; rfl)
      · rw [dif_neg hzero]
        refine .ofFinite hsign ?_ ?_ hfield
        · rw [significand, hfield', hmantissa]
          rfl
        · rw [exponent, if_pos hfield', hlow]
          rfl
    · have hfield' : exponentField x ≠ 0 := by
        rw [← hexponent]
        exact fun h => hlow (BitVec.eq_of_toNat_eq h)
      rw [if_neg hlow]
      refine .ofFinite hsign ?_ ?_ hfield
      · rw [significand, if_neg hfield', BitVec.toNat_append, hmantissa]
        exact (Nat.shiftLeft_add_eq_or_of_lt (i := 52) hfraction 1).symm
      · rw [exponent, if_neg hfield', hexponent]
        rfl

/-! ## Order -/

/-- a higher magnitude has a higher exponent, or the same one and a higher significand -/
theorem scaled_lt {x y : Float} (h : magnitude x < magnitude y) :
    exponent x < exponent y ∨ exponent x = exponent y ∧ significand x < significand y := by
  obtain ⟨hx, -, hx'⟩ := magnitude_eq x
  obtain ⟨hy, -, hy'⟩ := magnitude_eq y
  rw [hx, hy] at h
  simp only [exponent, significand, leadingBit] at *
  split <;> split <;> omega

theorem scaled_eq {x y : Float} (h : magnitude x = magnitude y) :
    exponent x = exponent y ∧ significand x = significand y := by
  obtain ⟨hx, -, hx'⟩ := magnitude_eq x
  obtain ⟨hy, -, hy'⟩ := magnitude_eq y
  rw [hx, hy] at h
  simp only [exponent, significand, leadingBit] at *
  split <;> split <;> omega

theorem sign_cases (x : Float) :
    sign x = .positive ∧ rank x = magnitude x ∨ sign x = .negative ∧ rank x = -(magnitude x : Int) := by
  unfold sign rank
  cases negative x with
  | false => exact .inl ⟨rfl, rfl⟩
  | true => exact .inr ⟨rfl, rfl⟩

theorem rank_bounds (x : Float) : -(magnitude x : Int) ≤ rank x ∧ rank x ≤ magnitude x := by
  rcases sign_cases x with ⟨-, h⟩ | ⟨-, h⟩ <;> omega

/-- numbers are compared by exponent, then by significand: that is the order of their magnitudes -/
theorem compare_scaled (x y : Float) :
    (compare (exponent x) (exponent y)).then (compare (significand x) (significand y)) =
      compare (magnitude x : Int) (magnitude y) := by
  rcases Nat.lt_trichotomy (magnitude x) (magnitude y) with h | h | h
  · rw [Int.compare_eq_lt.2 (Int.ofNat_lt.2 h), Ordering.then_eq_lt, Int.compare_eq_lt, Int.compare_eq_eq,
      Nat.compare_eq_lt]
    exact scaled_lt h
  · obtain ⟨hexponent, hsignificand⟩ := scaled_eq h
    rw [Int.compare_eq_eq.2 (Int.ofNat_inj.2 h), Int.compare_eq_eq.2 hexponent, Nat.compare_eq_eq.2 hsignificand]
    rfl
  · rw [Int.compare_eq_gt.2 (Int.ofNat_lt.2 h), Ordering.then_eq_gt, Int.compare_eq_gt, Int.compare_eq_eq,
      Nat.compare_eq_gt]
    rcases scaled_lt h with h | ⟨h, h'⟩
    · exact .inl h
    · exact .inr ⟨h.symm, h'⟩

section Compare

variable {x y : Float}

theorem some_lt (h : rank x < rank y) : some .lt = some (compare (rank x) (rank y)) := by rw [Int.compare_eq_lt.2 h]

theorem some_eq (h : rank x = rank y) : some .eq = some (compare (rank x) (rank y)) := by rw [Int.compare_eq_eq.2 h]

theorem some_gt (h : rank y < rank x) : some .gt = some (compare (rank x) (rank y)) := by rw [Int.compare_eq_gt.2 h]

/-- numbers other than zero compare as their ranks do -/
theorem compare_finite (hx : 0 < significand x) (hy : 0 < significand y) (hmx : 0 < magnitude x)
    (hmy : 0 < magnitude y) :
    (UnpackedFloat.finite (sign x) (significand x) (exponent x) hx).compare
      (.finite (sign y) (significand y) (exponent y) hy) = some (compare (rank x) (rank y)) := by
  have hscaled := compare_scaled x y
  have hswapped : (compare (magnitude x : Int) (magnitude y)).swap = compare (-(magnitude x : Int)) (-magnitude y) := by
    rw [Int.compare_swap]
    rcases Int.lt_trichotomy (magnitude x) (magnitude y) with h | h | h
    · rw [Int.compare_eq_gt.2 h, Int.compare_eq_gt.2 (Int.neg_lt_neg h)]
    · rw [Int.compare_eq_eq.2 h.symm, Int.compare_eq_eq.2 (congrArg _ h)]
    · rw [Int.compare_eq_lt.2 h, Int.compare_eq_lt.2 (Int.neg_lt_neg h)]
  rcases sign_cases x with ⟨hs, hr⟩ | ⟨hs, hr⟩ <;> rcases sign_cases y with ⟨hs', hr'⟩ | ⟨hs', hr'⟩ <;> rw [hs, hs']
  · rw [hr, hr', ← hscaled]
    rfl
  · exact some_gt (by omega)
  · exact some_lt (by omega)
  · rw [hr, hr', ← hswapped, ← hscaled]
    rfl

/-- two doubles that are not NaN compare as their ranks do -/
theorem compare_eq (hx : x.isNaN = false) (hy : y.isNaN = false) :
    x.toModel.unpack.compare y.toModel.unpack = some (compare (rank x) (rank y)) := by
  change x.toModel.unpack.isNaN = false at hx
  change y.toModel.unpack.isNaN = false at hy
  have hxs := unpacks x
  have hys := unpacks y
  generalize x.toModel.unpack = u at *
  generalize y.toModel.unpack = v at *
  have hxr := rank_bounds x
  have hyr := rank_bounds y
  have htop : 0 < topMagnitude := by decide
  cases hxs with
  | notANumber => cases hx
  | zero s h =>
    cases hys with
    | notANumber => cases hy
    | zero s' h' => exact some_eq (by omega)
    | finite hpos h' below =>
      rcases sign_cases y with ⟨hs, hr⟩ | ⟨hs, hr⟩ <;> rw [hs]
      · exact some_lt (by omega)
      · exact some_gt (by omega)
    | infinity h' =>
      rcases sign_cases y with ⟨hs, hr⟩ | ⟨hs, hr⟩ <;> rw [hs]
      · exact some_lt (by omega)
      · exact some_gt (by omega)
  | finite hpos h below =>
    cases hys with
    | notANumber => cases hy
    | zero s' h' =>
      rcases sign_cases x with ⟨hs, hr⟩ | ⟨hs, hr⟩ <;> rw [hs]
      · exact some_gt (by omega)
      · exact some_lt (by omega)
    | finite hpos' h' below' => exact compare_finite hpos hpos' h h'
    | infinity h' =>
      rcases sign_cases y with ⟨hs, hr⟩ | ⟨hs, hr⟩ <;> rw [hs]
      · exact some_lt (by omega)
      · exact some_gt (by omega)
  | infinity h =>
    rcases sign_cases x with ⟨hs, hr⟩ | ⟨hs, hr⟩ <;> rw [hs]
    · cases hys with
      | notANumber => cases hy
      | infinity h' =>
        rcases sign_cases y with ⟨hs', hr'⟩ | ⟨hs', hr'⟩ <;> rw [hs']
        · exact some_eq (by omega)
        · exact some_gt (by omega)
      | _ => exact some_gt (by omega)
    · cases hys with
      | notANumber => cases hy
      | infinity h' =>
        rcases sign_cases y with ⟨hs', hr'⟩ | ⟨hs', hr'⟩ <;> rw [hs']
        · exact some_lt (by omega)
        · exact some_eq (by omega)
      | _ => exact some_lt (by omega)

theorem lt_iff_compare : x < y ↔ x.toModel.unpack.compare y.toModel.unpack = some .lt := by
  have hlt : x < y ↔ (x.toModel.unpack.compare y.toModel.unpack == some .lt) = true :=
    decide_eq_true_iff (p := x.toModel < y.toModel)
  rw [hlt, beq_iff_eq]

/-- **Ranks are in the order of the doubles.** -/
theorem lt_iff_rank_lt (hx : x.isNaN = false) (hy : y.isNaN = false) : x < y ↔ rank x < rank y := by
  rw [lt_iff_compare, compare_eq hx hy, Option.some_inj, Int.compare_eq_lt]

/-- NaN is below nothing, and nothing is below it -/
theorem isNaN_of_lt (h : x < y) : x.isNaN = false ∧ y.isNaN = false := by
  rw [lt_iff_compare] at h
  change x.toModel.unpack.isNaN = false ∧ y.toModel.unpack.isNaN = false
  generalize x.toModel.unpack = u at h
  generalize y.toModel.unpack = v at h
  cases v with
  | notANumber => cases u <;> cases h
  | _ =>
    refine ⟨?_, rfl⟩
    cases u with
    | notANumber => cases h
    | _ => rfl

theorem rank_lt_of_lt (h : x < y) : rank x < rank y :=
  (lt_iff_rank_lt (isNaN_of_lt h).1 (isNaN_of_lt h).2).1 h

end Compare

end ReversePolish.Double
