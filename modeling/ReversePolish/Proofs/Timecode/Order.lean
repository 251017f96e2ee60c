/-
Labels in the order of their counts.

`Counts.count` is the exact count of a label, the sum of `Counts.addends`, and `key` puts labels in the order of their
hours, minutes, seconds and frames. The labels of a minute end where those of the next one begin, whether some are
dropped there or not (`Counts.minute_before`). So the count of a label with its fields in range stays within a day
(`InRange.count_range`). For labels that exist it grows with the key (`Legal.count_lt`), and the frame counts of a day
and the labels that exist correspond one to one and in order (`labels_in_order`).
-/
import Mathlib.Algebra.Order.BigOperators.Group.List
import Mathlib.Data.Prod.Lex
import Mathlib.Tactic.Linarith
import Mathlib.Tactic.Ring
import ReversePolish.Proofs.Timecode

namespace ReversePolish.Timecode

/-! ## Counts of labels -/

/-- what the count of a label adds up: its hours, tens of minutes, single minutes, seconds and frames -/
def Counts.addends (c : Counts) (t : Timecode) : List Int :=
  [t.hour.toInt * c.perHour, t.minute.toInt.tdiv 10 * c.perTenMinutes, t.minute.toInt.tmod 10 * c.perMinute,
    t.second.toInt * c.nominal, t.frame.toInt]

def Counts.count (c : Counts) (t : Timecode) : Int := (c.addends t).sum

theorem toFrames_eq {c : Counts} {t : Timecode} (hc : counts? t.rate = some c) :
    t.toFrames = Int64.ofInt (c.count t) := by
  unfold toFrames Counts.count Counts.addends
  rw [hc]
  simp only [List.sum_cons, List.sum_nil]
  congr 1
  ring

/-- labels by their hour, then by their minute, second and frame -/
def key (t : Timecode) : ℤ ×ₗ ℤ ×ₗ ℤ ×ₗ ℤ :=
  toLex (t.hour.toInt, toLex (t.minute.toInt, toLex (t.second.toInt, t.frame.toInt)))

theorem key_lt_iff (t u : Timecode) :
    t.key < u.key ↔ t.hour.toInt < u.hour.toInt ∨ t.hour.toInt = u.hour.toInt ∧
      (t.minute.toInt < u.minute.toInt ∨ t.minute.toInt = u.minute.toInt ∧
        (t.second.toInt < u.second.toInt ∨ t.second.toInt = u.second.toInt ∧ t.frame.toInt < u.frame.toInt)) := by
  simp only [key, Prod.Lex.toLex_lt_toLex]

theorem eq_of_key_eq {t u : Timecode} (h : t.key = u.key) (hrate : t.rate = u.rate) : t = u := by
  obtain ⟨hour, minute, second, frame, rate⟩ := t
  simp only [key, EmbeddingLike.apply_eq_iff_eq, Prod.mk.injEq, Int64.toInt_inj] at h
  obtain ⟨rfl, rfl, rfl, rfl⟩ := h
  subst hrate
  rfl

namespace Counts

variable {c : Counts}

/-- the number of the first label of a minute, within its hour, as if no label were dropped there -/
def minuteStart (c : Counts) (minute : Int) : Int := minute * c.perMinute + minute / 10 * c.drop

def inMinute (c : Counts) (t : Timecode) : Int := t.second.toInt * c.nominal + t.frame.toInt

theorem minuteStart_sixty (c : Counts) : c.minuteStart 60 = c.perHour := by
  unfold minuteStart perHour perTenMinutes
  omega

theorem Regular.perMinute_pos (hc : c.Regular) : 0 < c.perMinute := by
  obtain ⟨hone, -, -, hdropLe⟩ := hc
  unfold perMinute
  omega

/-- a higher place outweighs all lower ones -/
theorem place_lt {x y unit r r' : Int} (hxy : x < y) (hr : r < unit) (hr' : 0 ≤ r') (hunit : 0 ≤ unit) :
    x * unit + r < y * unit + r' :=
  calc x * unit + r < x * unit + unit := by omega
    _ = (x + 1) * unit := by ring
    _ ≤ y * unit := Int.mul_le_mul_of_nonneg_right hxy hunit
    _ ≤ y * unit + r' := by omega

/-- A minute ends before a later one begins. The labels that the later one drops make up for those that the earlier one
has beyond its count. -/
theorem minute_before (hc : c.Regular) {m m' r r' : Int} (hm : m < m') (hr : r < c.nominal * 60) (hr' : 0 ≤ r')
    (hkept : m' % 10 = 0 ∨ c.drop ≤ r') : c.minuteStart m + r < c.minuteStart m' + r' := by
  have hminutes : (m + 1) * c.perMinute ≤ m' * c.perMinute :=
    Int.mul_le_mul_of_nonneg_right hm (Int.le_of_lt hc.perMinute_pos)
  have htens : (m / 10 + 1) * c.drop ≤ m' / 10 * c.drop + r' := by
    rcases hkept with hten | hdrop
    · have hnext : m / 10 + 1 ≤ m' / 10 := by omega
      have := Int.mul_le_mul_of_nonneg_right hnext hc.drop_nonneg
      omega
    · have hsame : m / 10 ≤ m' / 10 := by omega
      have := Int.mul_le_mul_of_nonneg_right hsame hc.drop_nonneg
      linarith
  have hminute : c.perMinute = c.nominal * 60 - c.drop := rfl
  unfold minuteStart
  linarith

end Counts

theorem count_congr {c : Counts} {t u : Timecode} (h : t.key = u.key) : c.count t = c.count u := by
  simp only [key, EmbeddingLike.apply_eq_iff_eq, Prod.mk.injEq] at h
  obtain ⟨hhour, hminute, hsecond, hframe⟩ := h
  simp only [Counts.count, Counts.addends, hhour, hminute, hsecond, hframe]

/-! ## Labels with their fields in range -/

namespace InRange

variable {c : Counts} {t : Timecode}

theorem inMinute_range (ht : InRange c t) : 0 ≤ c.inMinute t ∧ c.inMinute t < c.nominal * 60 := by
  obtain ⟨hsecond, hsecond'⟩ := ht.second
  obtain ⟨hframe, hframe'⟩ := ht.frame
  have hnominal : 0 ≤ c.nominal := by omega
  constructor
  · exact Int.add_nonneg (Int.mul_nonneg hsecond hnominal) hframe
  · have hend : t.second.toInt * c.nominal + t.frame.toInt < 60 * c.nominal + 0 :=
      Counts.place_lt hsecond' hframe' (Int.le_refl 0) hnominal
    unfold Counts.inMinute
    omega

theorem count_eq (ht : InRange c t) :
    c.count t = t.hour.toInt * c.perHour + (c.minuteStart t.minute.toInt + c.inMinute t) := by
  have hminute : t.minute.toInt = t.minute.toInt / 10 * 10 + t.minute.toInt % 10 := by omega
  unfold Counts.count Counts.addends Counts.minuteStart Counts.inMinute
  simp only [List.sum_cons, List.sum_nil]
  rw [Int.tdiv_eq_ediv_of_nonneg ht.minute.1, Int.tmod_eq_emod_of_nonneg ht.minute.1]
  have hten : c.perTenMinutes = c.perMinute * 10 + c.drop := rfl
  have hproduct : t.minute.toInt * c.perMinute =
      (t.minute.toInt / 10 * 10 + t.minute.toInt % 10) * c.perMinute := by rw [← hminute]
  rw [hproduct, hten]
  ring

theorem inHour_range (hc : c.Regular) (ht : InRange c t) :
    0 ≤ c.minuteStart t.minute.toInt + c.inMinute t ∧
      c.minuteStart t.minute.toInt + c.inMinute t < c.perHour := by
  obtain ⟨hminute, hminute'⟩ := ht.minute
  obtain ⟨hrest, hrest'⟩ := ht.inMinute_range
  constructor
  · have hstart : 0 ≤ c.minuteStart t.minute.toInt :=
      Int.add_nonneg (Int.mul_nonneg hminute (Int.le_of_lt hc.perMinute_pos))
        (Int.mul_nonneg (by omega) hc.drop_nonneg)
    omega
  · have hend := Counts.minute_before hc hminute' hrest' (Int.le_refl 0) (.inl rfl)
    rwa [Int.add_zero, Counts.minuteStart_sixty] at hend

theorem count_range (hc : c.Regular) (ht : InRange c t) : 0 ≤ c.count t ∧ c.count t < c.perDay := by
  obtain ⟨hhour, hhour'⟩ := ht.hour
  obtain ⟨hrest, hrest'⟩ := ht.inHour_range hc
  have hperHour := Int.le_of_lt hc.perHour_pos
  rw [ht.count_eq]
  constructor
  · exact Int.add_nonneg (Int.mul_nonneg hhour hperHour) hrest
  · have hend : t.hour.toInt * c.perHour + (c.minuteStart t.minute.toInt + c.inMinute t) < 24 * c.perHour + 0 :=
      Counts.place_lt hhour' hrest' (Int.le_refl 0) hperHour
    unfold Counts.perDay
    omega

/-- the count of such a label does not leave the range of 64-bit integers -/
theorem toInt_toFrames (hc : counts? t.rate = some c) (ht : InRange c t) : t.toFrames.toInt = c.count t := by
  have hregular := counts?_regular hc
  obtain ⟨hlow, hhigh⟩ := ht.count_range hregular
  have hday := hregular.perDay_le
  rw [toFrames_eq hc]
  exact toInt_ofInt_of_nonneg hlow (by omega)

end InRange

/-! ## Labels that exist -/

namespace Legal

variable {c : Counts} {t u : Timecode}

/-- outside each tenth minute the frame is not among the first ones -/
theorem drop_le_inMinute (hc : c.Regular) (ht : Legal c t) :
    t.minute.toInt % 10 = 0 ∨ c.drop ≤ c.inMinute t := by
  have hkept := ht.kept
  have hframe := ht.frame
  have hdrop := hc.drop_le
  have hdrop' := hc.drop_nonneg
  unfold Counts.inMinute
  rcases Int.lt_or_eq_of_le ht.second.1 with hsecond | hsecond
  · have hnominal : 1 * c.nominal ≤ t.second.toInt * c.nominal :=
      Int.mul_le_mul_of_nonneg_right hsecond (by omega)
    omega
  · rw [← hsecond] at hkept ⊢
    omega

/-- later labels have higher counts -/
theorem count_lt (hc : c.Regular) (ht : Legal c t) (hu : Legal c u) (h : t.key < u.key) : c.count t < c.count u := by
  rw [ht.count_eq, hu.count_eq]
  rcases (key_lt_iff t u).1 h with hhour | ⟨hhour, hminute | ⟨hminute, hrest⟩⟩
  · exact Counts.place_lt hhour (ht.inHour_range hc).2 (hu.inHour_range hc).1
      (Int.le_of_lt hc.perHour_pos)
  · have := Counts.minute_before hc hminute ht.inMinute_range.2 hu.inMinute_range.1
      (hu.drop_le_inMinute hc)
    rw [hhour]
    omega
  · have hframes : c.inMinute t < c.inMinute u := by
      unfold Counts.inMinute
      rcases hrest with hsecond | ⟨hsecond, hframe⟩
      · exact Counts.place_lt hsecond ht.frame.2 hu.frame.1 (by have := hc.one_le; omega)
      · rw [hsecond]
        omega
    rw [hhour, hminute]
    omega

theorem key_lt_of_count_lt (hc : c.Regular) (ht : Legal c t) (hu : Legal c u) (h : c.count t < c.count u) :
    t.key < u.key := by
  rcases lt_trichotomy t.key u.key with hlt | heq | hgt
  · exact hlt
  · rw [count_congr heq] at h
    exact absurd h (Int.lt_irrefl _)
  · have := hu.count_lt hc ht hgt
    omega

theorem key_eq_of_count_eq (hc : c.Regular) (ht : Legal c t) (hu : Legal c u) (h : c.count t = c.count u) :
    t.key = u.key := by
  rcases lt_trichotomy t.key u.key with hlt | heq | hgt
  · have := ht.count_lt hc hu hlt
    omega
  · exact heq
  · have := hu.count_lt hc ht hgt
    omega

/-- every part of the sum stays within a day, so none is out of the range of 64-bit integers -/
theorem part_range (hc : c.Regular) (ht : Legal c t) {part : List Int} (h : part.Sublist (c.addends t)) :
    0 ≤ part.sum ∧ part.sum < c.perDay := by
  have hminute := hc.perMinute_pos
  have hten : 0 ≤ c.perTenMinutes := by
    have := hc.drop_nonneg
    unfold Counts.perTenMinutes
    omega
  have hnonneg : ∀ n ∈ c.addends t, 0 ≤ n := by
    simp only [Counts.addends, List.forall_mem_cons, List.not_mem_nil, false_imp_iff, implies_true, and_true]
    rw [Int.tdiv_eq_ediv_of_nonneg ht.minute.1, Int.tmod_eq_emod_of_nonneg ht.minute.1]
    exact ⟨Int.mul_nonneg ht.hour.1 (Int.le_of_lt hc.perHour_pos),
      Int.mul_nonneg (Int.ediv_nonneg ht.minute.1 (by decide)) hten,
      Int.mul_nonneg (Int.emod_nonneg _ (by decide)) (Int.le_of_lt hminute),
      Int.mul_nonneg ht.second.1 (by have := hc.one_le; omega), ht.frame.1⟩
  constructor
  · exact List.sum_nonneg fun n hn => hnonneg n (h.subset hn)
  · calc part.sum ≤ (c.addends t).sum := h.sum_le_sum hnonneg
      _ < c.perDay := (ht.count_range hc).2

end Legal

/-! ## Frame counts and labels -/

/-- the label of a frame count within a day has that count -/
theorem Labels.count_eq {c : Counts} {frames : Int} {t : Timecode} (h : Labels c frames t) :
    c.count t = frames % c.perDay := by
  rw [← h.counts]
  unfold Counts.count Counts.addends
  rw [Int.tdiv_eq_ediv_of_nonneg h.minute.1, Int.tmod_eq_emod_of_nonneg h.minute.1]
  simp only [List.sum_cons, List.sum_nil]
  ring

theorem ofFrames_ok {rate : Fraction} {c : Counts} (hc : counts? rate = some c) (frames : Int64) :
    ∃ t, ofFrames frames rate = some t ∧ t.rate = rate ∧ Labels c frames.toInt t := by
  obtain ⟨t, ht⟩ : ∃ t, ofFrames frames rate = some t := by
    unfold ofFrames
    rw [hc]
    exact ⟨_, rfl⟩
  obtain ⟨c', hc', hrate, hlabels⟩ := ofFrames_cases ht
  cases hc.symm.trans hc'
  exact ⟨t, ht, hrate, hlabels⟩

/-- a label that exists is the label of its count -/
theorem ofFrames_count {rate : Fraction} {c : Counts} (hc : counts? rate = some c) {t : Timecode}
    (hrate : t.rate = rate) (ht : Legal c t) {frames : Int64} (hframes : frames.toInt = c.count t) :
    ofFrames frames rate = some t := by
  have hregular := counts?_regular hc
  obtain ⟨hlow, hhigh⟩ := ht.count_range hregular
  obtain ⟨u, hu, hrate', hlabels⟩ := ofFrames_ok hc frames
  have hcount : c.count u = c.count t := by
    rw [hlabels.count_eq, hframes, Int.emod_eq_of_lt hlow hhigh]
  have hkey := hlabels.toLegal.key_eq_of_count_eq hregular ht hcount
  rw [hu, eq_of_key_eq hkey (hrate'.trans hrate.symm)]

/-- **Frame counts and labels correspond in order.** At an accepted rate every frame count has a label that exists, and
the label counts back to it modulo a day without leaving the range of 64-bit integers on the way. Over one day, every
label that exists belongs to exactly one frame count, and later frames have later labels. -/
theorem labels_in_order {rate : Fraction} {c : Counts} (hc : counts? rate = some c) :
    (1 ≤ c.nominal ∧ c.nominal ≤ 1000000 ∧ c.drop = if drops rate then c.nominal / 15 else 0) ∧
    (∀ frames : Int64, ∃ t, ofFrames frames rate = some t ∧ t.rate = rate ∧ Legal c t ∧
      t.toFrames.toInt = frames.toInt % c.perDay ∧ t.toFrames = Int64.ofInt (c.addends t).sum ∧
      ∀ part : List Int, part.Sublist (c.addends t) → 0 ≤ part.sum ∧ part.sum < c.perDay) ∧
    c.perDay < Int64.maxValue.toInt ∧
    (∀ t : Timecode, t.rate = rate → Legal c t →
      ∃! frames : Int64, (0 ≤ frames.toInt ∧ frames.toInt < c.perDay) ∧ ofFrames frames rate = some t) ∧
    ∀ (frames later : Int64) (t u : Timecode), 0 ≤ frames.toInt → frames.toInt < later.toInt → later.toInt < c.perDay →
      ofFrames frames rate = some t → ofFrames later rate = some u → t.key < u.key := by
  have hregular := counts?_regular hc
  have hday : c.perDay < Int64.maxValue.toInt := Int.lt_of_le_of_lt hregular.perDay_le (by decide)
  refine ⟨⟨hregular.one_le, hregular.le_million, counts?_drop hc⟩, ?_, hday, ?_, ?_⟩
  · intro frames
    obtain ⟨t, ht, hrate, hlabels⟩ := ofFrames_ok hc frames
    obtain ⟨c', hc', -, hcount⟩ := toFrames_ofFrames ht
    cases hc.symm.trans hc'
    exact ⟨t, ht, hrate, hlabels.toLegal, hcount, toFrames_eq (hrate ▸ hc),
      fun part => hlabels.toLegal.part_range hregular⟩
  · intro t hrate ht
    obtain ⟨hlow, hhigh⟩ := ht.count_range hregular
    have hframes : (Int64.ofInt (c.count t)).toInt = c.count t :=
      toInt_ofInt_of_nonneg hlow (Int.lt_trans hhigh (Int.lt_trans hday (by decide)))
    refine ⟨Int64.ofInt (c.count t), ⟨by rw [hframes]; exact ⟨hlow, hhigh⟩, ofFrames_count hc hrate ht hframes⟩, ?_⟩
    rintro frames ⟨⟨hlow', hhigh'⟩, hlabel⟩
    obtain ⟨u, hu, -, hlabels⟩ := ofFrames_ok hc frames
    cases hlabel.symm.trans hu
    rw [hlabels.count_eq, Int.emod_eq_of_lt hlow' hhigh', Int64.ofInt_toInt]
  · intro frames later t u hlow hlt hhigh ht hu
    obtain ⟨t', ht', -, hlabels⟩ := ofFrames_ok hc frames
    obtain ⟨u', hu', -, hlabels'⟩ := ofFrames_ok hc later
    cases ht.symm.trans ht'
    cases hu.symm.trans hu'
    refine hlabels.toLegal.key_lt_of_count_lt hregular hlabels'.toLegal ?_
    rw [hlabels.count_eq, hlabels'.count_eq, Int.emod_eq_of_lt hlow (by omega), Int.emod_eq_of_lt (by omega) hhigh]
    exact hlt

/-- at 30000/1001 frames a second the labels 00:01:00;00 and 00:01:00;01 do not exist: 00:01:00;02 has one count, and
comes right after 00:00:59;29 -/
theorem labels_in_order_dropped :
    counts? (.mk 30000 1001) = some ⟨30, 2⟩ ∧ Legal ⟨30, 2⟩ ⟨0, 1, 0, 2, .mk 30000 1001⟩ ∧
    (∃! frames : Int64, (0 ≤ frames.toInt ∧ frames.toInt < 2589408) ∧
      ofFrames frames (.mk 30000 1001) = some ⟨0, 1, 0, 2, .mk 30000 1001⟩) ∧
    ofFrames 1799 (.mk 30000 1001) = some ⟨0, 0, 59, 29, .mk 30000 1001⟩ ∧
    ofFrames 1800 (.mk 30000 1001) = some ⟨0, 1, 0, 2, .mk 30000 1001⟩ ∧
    key ⟨0, 0, 59, 29, .mk 30000 1001⟩ < key ⟨0, 1, 0, 2, .mk 30000 1001⟩ := by
  have hlegal : Legal ⟨30, 2⟩ ⟨0, 1, 0, 2, .mk 30000 1001⟩ :=
    ⟨⟨by decide, by decide, by decide, by decide⟩, by decide⟩
  have haccepted : counts? (.mk 30000 1001) = some ⟨30, 2⟩ := rfl
  obtain ⟨-, -, -, hunique, horder⟩ := labels_in_order haccepted
  exact ⟨haccepted, hlegal, hunique _ rfl hlegal, rfl, rfl,
    horder 1799 1800 _ _ (by decide) (by decide) (by decide) rfl rfl⟩

end ReversePolish.Timecode
