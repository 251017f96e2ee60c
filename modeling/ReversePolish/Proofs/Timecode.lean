/-
Labels and frame counts.

An accepted rate has between one and a million frames in a second, and drops at most a fifteenth of them at the start of
a minute (`counts?_regular`). `splitHour_spec` inverts the split of an hour into minutes and frames, and from it:
- `toFrames_ofFrames`: the label of a frame count counts back to it, modulo a day;
- `ofFrames_toFrames`: a label that a frame count has is the label of its own count.
-/
import ReversePolish.Proofs.Fraction
import ReversePolish.Proofs.Number.Double
import ReversePolish.Timecode

namespace ReversePolish.Timecode

/-! ## Counts of a rate -/

/-- the counts that an accepted rate has -/
structure Counts.Regular (c : Counts) : Prop where
  one_le : 1 ≤ c.nominal
  le_million : c.nominal ≤ 1000000
  drop_nonneg : 0 ≤ c.drop
  drop_le : c.drop * 15 ≤ c.nominal

theorem maxRate_fields : Double.exponent maxRate = -33 ∧ Double.significand maxRate = 1000000 * Nat.pow 2 33 := by
  decide +kernel

/-- the least whole number above a rate that is positive and at most the highest accepted one -/
theorem ceiled_rate {fps : Float} (hfinite : fps.isFinite = true) (hpos : ¬ fps ≤ 0.0) (hmax : ¬ maxRate < fps) :
    1 ≤ Double.ceiled fps ∧ Double.ceiled fps ≤ 1000000 := by
  obtain ⟨hneg, hsig, hunpack⟩ := Double.positive_of_not_le hfinite hpos
  obtain ⟨-, hsigMax, hunpackMax⟩ := Double.positive_of_not_le (x := maxRate) (by decide +kernel) (by decide +kernel)
  have hbelow := Double.scaled_le_of_not_lt hunpack hunpackMax hmax
  rw [maxRate_fields.1, maxRate_fields.2] at hbelow
  -- the fractional part has 33 bits or more
  obtain ⟨k, hk, he⟩ : ∃ k : Nat, 33 ≤ k ∧ Double.exponent fps = -(k : Int) := by
    refine ⟨(-Double.exponent fps).toNat, ?_, ?_⟩ <;> omega
  refine ⟨Double.one_le_ceiled hneg hsig (by omega) he, Double.ceiled_le (n := 1000000) hneg (by omega) he ?_⟩
  rcases hbelow with hlow | ⟨heq, hle⟩
  · have hpow : Nat.pow 2 34 ≤ Nat.pow 2 k := Nat.pow_le_pow_right (by decide) (by omega)
    have hlt : Double.significand fps < 1000000 * Nat.pow 2 34 := Nat.lt_trans (Double.significand_lt fps) (by decide)
    omega
  · obtain rfl : k = 33 := by omega
    exact hle

theorem counts?_regular {rate : Fraction} {c : Counts} (h : counts? rate = some c) : c.Regular := by
  unfold counts? at h
  dsimp only at h
  split at h
  · cases h
  · rename_i haccepted
    simp only [Bool.or_eq_true, Bool.not_eq_eq_eq_not, Bool.not_true, decide_eq_true_eq, not_or, Bool.not_eq_false]
      at haccepted
    obtain ⟨⟨hfinite, hpos⟩, hmax⟩ := haccepted
    obtain ⟨hone, hmillion⟩ := ceiled_rate hfinite hpos hmax
    cases h
    refine ⟨hone, hmillion, ?_, ?_⟩ <;> (dsimp only; split <;> omega)

/-- the rates that are refused -/
theorem counts?_eq_none_iff {rate : Fraction} :
    counts? rate = none ↔ rate.toDouble.isFinite = false ∨ rate.toDouble ≤ 0.0 ∨ maxRate < rate.toDouble := by
  unfold counts?
  dsimp only
  split
  · rename_i h
    simpa [or_assoc] using h
  · rename_i h
    simpa [not_or, and_assoc] using h

/-- a fifteenth of the labels of a second is dropped, at a rate that is not whole -/
theorem counts?_drop {rate : Fraction} {c : Counts} (h : counts? rate = some c) :
    c.drop = if drops rate then c.nominal / 15 else 0 := by
  unfold counts? at h
  dsimp only at h
  split at h
  · cases h
  · cases h
    rfl

/-! ## Minutes of an hour -/

namespace Counts

variable {c : Counts}

theorem Regular.perHour_pos (hc : c.Regular) : 0 < c.perHour := by
  obtain ⟨hone, -, hdrop, hdropLe⟩ := hc
  unfold perHour perTenMinutes perMinute
  omega

theorem Regular.perDay_pos (hc : c.Regular) : 0 < c.perDay := by
  have := hc.perHour_pos
  unfold perDay
  omega

theorem Regular.perDay_le (hc : c.Regular) : c.perDay ≤ 86400 * 1000000 := by
  obtain ⟨-, hmillion, hdrop, -⟩ := hc
  unfold perDay perHour perTenMinutes perMinute
  omega

/-- the minute and the frame within it of a frame of an hour: both are in range, the frame is not one that the minute
skips, and they count back to the frame -/
structure Splits (c : Counts) (frames minute rest : Int) : Prop where
  minute_nonneg : 0 ≤ minute
  minute_lt : minute < 60
  rest_nonneg : 0 ≤ rest
  rest_lt : rest < c.nominal * 60
  kept : minute % 10 = 0 ∨ c.drop ≤ rest
  counts : minute / 10 * c.perTenMinutes + minute % 10 * c.perMinute + rest = frames

/-- ten minutes, minutes and frames put together -/
theorem Splits.of_parts {frames tens minute rest : Int} (htens : 0 ≤ tens ∧ tens < 6)
    (hminute : 0 ≤ minute ∧ minute < 10) (hrest : 0 ≤ rest ∧ rest < c.nominal * 60)
    (hkept : minute = 0 ∨ c.drop ≤ rest) (hcounts : tens * c.perTenMinutes + minute * c.perMinute + rest = frames) :
    c.Splits frames (tens * 10 + minute) rest := by
  have hdiv : (tens * 10 + minute) / 10 = tens := by omega
  have hmod : (tens * 10 + minute) % 10 = minute := by omega
  refine ⟨by omega, by omega, hrest.1, hrest.2, ?_, ?_⟩
  · rwa [hmod]
  · rwa [hdiv, hmod]

/-- a number below a multiple of a positive unit has a quotient below the factor, and a remainder below the unit -/
theorem parts (count : Int) {n unit : Int} (hnonneg : 0 ≤ n) (hlt : n < count * unit) (hunit : 0 < unit) :
    (0 ≤ n / unit ∧ n / unit < count) ∧ (0 ≤ n % unit ∧ n % unit < unit) ∧ n / unit * unit + n % unit = n :=
  ⟨⟨Int.ediv_nonneg hnonneg (Int.le_of_lt hunit), Int.ediv_lt_of_lt_mul hunit hlt⟩,
    ⟨Int.emod_nonneg n (Int.ne_of_gt hunit), Int.emod_lt_of_pos n hunit⟩, Int.ediv_mul_add_emod n unit⟩

theorem splitHour_spec (hc : c.Regular) {frames : Int} (hnonneg : 0 ≤ frames) (hlt : frames < c.perHour) :
    c.Splits frames (c.splitHour frames).1 (c.splitHour frames).2 := by
  obtain ⟨hone, -, hdrop, hdropLe⟩ := hc
  have hminute : c.perMinute = c.nominal * 60 - c.drop := rfl
  have hten : c.perTenMinutes = c.perMinute * 10 + c.drop := rfl
  have hhour : c.perHour = c.perTenMinutes * 6 := rfl
  unfold splitHour
  split
  · obtain ⟨htens, ⟨hlow, hhigh⟩, hframes⟩ := parts 6 hnonneg (by omega) (by omega : 0 < c.perTenMinutes)
    dsimp only
    generalize frames / c.perTenMinutes = tens at htens hframes ⊢
    generalize frames % c.perTenMinutes = inTen at hlow hhigh hframes ⊢
    by_cases hfirst : inTen < c.drop
    · -- the labels that only the first of ten minutes has: the division rounds toward zero
      have hdiv : (inTen - c.drop).tdiv c.perMinute = 0 := by
        rw [← Int.neg_sub, Int.neg_tdiv, Int.tdiv_eq_zero_of_lt (by omega) (by omega)]
        rfl
      rw [Int.tmod_def, hdiv]
      exact .of_parts htens (by omega) (by omega) (.inl rfl) (by omega)
    · obtain ⟨hminutes, hrest, hinTen⟩ := parts 10 (n := inTen - c.drop) (by omega) (by omega)
        (by omega : 0 < c.perMinute)
      rw [Int.tdiv_eq_ediv_of_nonneg (by omega), Int.tmod_eq_emod_of_nonneg (by omega)]
      exact .of_parts htens hminutes (by omega) (.inr (by omega)) (by omega)
  · -- no label is dropped, and ten minutes are ten times a minute
    obtain ⟨hminutes, hrest, hframes⟩ := parts 60 hnonneg (by omega) (by omega : 0 < c.perMinute)
    dsimp only
    generalize frames / c.perMinute = minutes at hminutes hframes ⊢
    have hsplit : minutes = minutes / 10 * 10 + minutes % 10 := by omega
    have hwhole : minutes / 10 * c.perTenMinutes = minutes / 10 * 10 * c.perMinute := by
      rw [hten, Int.mul_assoc, Int.mul_comm 10]
      congr 1
      omega
    rw [hsplit]
    refine .of_parts (by omega) (by omega) (by omega) (.inr (by omega)) ?_
    rw [hwhole, ← Int.add_mul, ← hsplit]
    exact hframes

end Counts

/-! ## Labels of frame counts -/

theorem toInt_ofInt_of_nonneg {n : Int} (hnonneg : 0 ≤ n) (hlt : n < 0x8000000000000000) :
    (Int64.ofInt n).toInt = n :=
  Int64.toInt_ofInt_of_le (by omega) (by omega)

/-- a frame count within a day is a 64-bit integer -/
theorem Counts.Regular.toInt_inDay {c : Counts} (hc : c.Regular) (frames : Int) :
    (Int64.ofInt (frames % c.perDay)).toInt = frames % c.perDay := by
  have hpos := hc.perDay_pos
  have hle := hc.perDay_le
  have hhigh := Int.emod_lt_of_pos frames hpos
  exact toInt_ofInt_of_nonneg (Int.emod_nonneg frames (Int.ne_of_gt hpos)) (by omega)

/-- each field is in its range; the label may be one of those that are dropped -/
structure InRange (c : Counts) (t : Timecode) : Prop where
  hour : 0 ≤ t.hour.toInt ∧ t.hour.toInt < 24
  minute : 0 ≤ t.minute.toInt ∧ t.minute.toInt < 60
  second : 0 ≤ t.second.toInt ∧ t.second.toInt < 60
  frame : 0 ≤ t.frame.toInt ∧ t.frame.toInt < c.nominal

/-- a label that exists: it is not one of the labels dropped at the start of a minute -/
structure Legal (c : Counts) (t : Timecode) : Prop extends InRange c t where
  kept : ¬ (t.second.toInt = 0 ∧ t.frame.toInt < c.drop ∧ t.minute.toInt % 10 ≠ 0)

/-- the label of a frame count: it exists, and its fields count back to it within a day -/
structure Labels (c : Counts) (frames : Int) (t : Timecode) : Prop extends Legal c t where
  counts : t.hour.toInt * c.perHour + t.minute.toInt / 10 * c.perTenMinutes + t.minute.toInt % 10 * c.perMinute +
    t.second.toInt * c.nominal + t.frame.toInt = frames % c.perDay

theorem ofFrames_cases {frames : Int64} {rate : Fraction} {t : Timecode} (h : ofFrames frames rate = some t) :
    ∃ c, counts? rate = some c ∧ t.rate = rate ∧ Labels c frames.toInt t := by
  obtain ⟨c, hc, rfl⟩ := Option.map_eq_some_iff.1 h
  refine ⟨c, hc, rfl, ?_⟩
  have hregular := counts?_regular hc
  have hperHour := hregular.perHour_pos
  have hperDay : c.perDay = 24 * c.perHour := Int.mul_comm _ _
  have hnominal := hregular.le_million
  have hone := hregular.one_le
  suffices hfields : ∀ inDay, 0 ≤ inDay → inDay < c.perDay → inDay = frames.toInt % c.perDay → Labels c frames.toInt
      { hour := Int64.ofInt (inDay / c.perHour)
        minute := Int64.ofInt (c.splitHour (inDay % c.perHour)).1
        second := Int64.ofInt ((c.splitHour (inDay % c.perHour)).2 / c.nominal)
        frame := Int64.ofInt ((c.splitHour (inDay % c.perHour)).2 % c.nominal)
        rate } from
    hfields _ (Int.emod_nonneg _ (by omega)) (Int.emod_lt_of_pos _ (by omega)) rfl
  intro inDay hlow hhigh heq
  obtain ⟨hhour, hinHour, hinDay⟩ := Counts.parts 24 hlow (hperDay ▸ hhigh) hperHour
  obtain ⟨hmin0, hmin60, hrest0, hrest60, hkept, hcounts⟩ := Counts.splitHour_spec hregular hinHour.1 hinHour.2
  obtain ⟨hsecond, hframe, hrest⟩ := Counts.parts 60 hrest0 (Int.mul_comm _ _ ▸ hrest60) hone
  have ehour := toInt_ofInt_of_nonneg hhour.1 (by omega)
  have eminute := toInt_ofInt_of_nonneg hmin0 (by omega)
  have esecond := toInt_ofInt_of_nonneg hsecond.1 (by omega)
  have eframe := toInt_ofInt_of_nonneg hframe.1 (by omega)
  refine ⟨⟨⟨?_, ?_, ?_, ?_⟩, ?_⟩, ?_⟩ <;> dsimp only <;> simp only [ehour, eminute, esecond, eframe]
  · exact hhour
  · exact ⟨hmin0, hmin60⟩
  · exact hsecond
  · exact hframe
  · rintro ⟨hzero, hdropped, hminute⟩
    rw [hzero, Int.zero_mul, Int.zero_add] at hrest
    omega
  · omega

/-- **Labels count back.** The label of a frame count has that count, modulo a day. -/
theorem toFrames_ofFrames {frames : Int64} {rate : Fraction} {t : Timecode} (h : ofFrames frames rate = some t) :
    ∃ c, counts? rate = some c ∧ t.rate = rate ∧ t.toFrames.toInt = frames.toInt % c.perDay := by
  obtain ⟨c, hc, hrate, hlabels⟩ := ofFrames_cases h
  refine ⟨c, hc, hrate, ?_⟩
  unfold toFrames
  rw [hrate, hc]
  dsimp only
  rw [Int.tdiv_eq_ediv_of_nonneg hlabels.minute.1, Int.tmod_eq_emod_of_nonneg hlabels.minute.1, hlabels.counts]
  exact (counts?_regular hc).toInt_inDay frames.toInt

/-- **Counts label back.** A label that some frame count has is the label of its own count. -/
theorem ofFrames_toFrames {frames : Int64} {rate : Fraction} {t : Timecode} (h : ofFrames frames rate = some t) :
    ofFrames t.toFrames t.rate = some t := by
  obtain ⟨c, hc, hrate, hcount⟩ := toFrames_ofFrames h
  rw [← h]
  unfold ofFrames
  rw [hrate, hc]
  dsimp only [Option.map_some]
  rw [hcount, Int.emod_emod]

/-! ## Rates of timecodes -/

/-- the timecode is at a rate that is accepted -/
def Rated (t : Timecode) : Prop := (counts? t.rate).isSome = true

/-- timecodes are made at accepted rates, from frame counts -/
theorem rated_of_ofFrames {frames : Int64} {rate : Fraction} {t : Timecode} (h : ofFrames frames rate = some t) :
    t.Rated := by
  obtain ⟨c, hc, rfl⟩ := Option.map_eq_some_iff.1 h
  exact Option.isSome_of_eq_some hc

/-- and from fields -/
theorem rated_of_ofFields {hour minute second frame : Int64} {rate : Fraction} {t : Timecode}
    (h : ofFields hour minute second frame rate = some t) : t.Rated := by
  obtain ⟨c, hc, rfl⟩ := Option.map_eq_some_iff.1 h
  exact Option.isSome_of_eq_some hc

/-- at the rate of a timecode there is one for every count of frames -/
theorem Rated.exists_ofFrames {t : Timecode} (h : t.Rated) (frames : Int64) : ∃ u, ofFrames frames t.rate = some u := by
  refine Option.isSome_iff_exists.1 ?_
  rw [ofFrames, Option.isSome_map]
  exact h

end ReversePolish.Timecode
