/-
Fields carried into a label.

`ofFields` carries every field into its range without regard to dropped labels. Among all labels of a day, dropped or
not, it makes the one whose number is that of the fields, modulo a day (`ofFields_ok`), and leaves a label in range as
it is (`ofFields_of_inRange`). The carries are computed once more as a machine would, in 128 bits and then in 64
(`ofFieldsWithin`). A dropped label has the count of a label in the minute before (`Counts.relabel`). Results:
- `fields_carry`: fields are carried within these limits, for good, and without dropped labels to the right count;
- `fields_relabelled`: a label made of fields is the label of its own count, and comes back from its source, unless it
  is a dropped one.
-/
import ReversePolish.Proofs.Fraction.Arithmetic
import ReversePolish.Proofs.Timecode.Order
import ReversePolish.Proofs.Value.Source

namespace ReversePolish.Timecode

variable {c : Counts} {rate : Fraction} {t u : Timecode}

/-! ## Numbers of labels -/

namespace Counts

/-- the number of a label within a day if no label were dropped, for any fields -/
def number (c : Counts) (hour minute second frame : Int) : Int :=
  ((hour * 60 + minute) * 60 + second) * c.nominal + frame

def numberOf (c : Counts) (t : Timecode) : Int := c.number t.hour.toInt t.minute.toInt t.second.toInt t.frame.toInt

/-- the counts of a rate at which no label is dropped -/
def undropped (c : Counts) : Counts := ⟨c.nominal, 0⟩

theorem Regular.undropped (hc : c.Regular) : c.undropped.Regular := by
  obtain ⟨hone, hmillion, -, -⟩ := hc
  have hdrop : (0 : Int) * 15 ≤ c.nominal := by omega
  exact ⟨hone, hmillion, Int.le_refl 0, hdrop⟩

theorem undropped_eq (h : c.drop = 0) : c.undropped = c := by
  obtain ⟨nominal, drop⟩ := c
  cases h
  rfl

theorem perDay_undropped (c : Counts) : c.undropped.perDay = 86400 * c.nominal := by
  simp only [perDay, perHour, perTenMinutes, perMinute, undropped]
  omega

end Counts

theorem InRange.undropped (ht : InRange c t) : InRange c.undropped t := ⟨ht.hour, ht.minute, ht.second, ht.frame⟩

/-- where no label is dropped, numbers are counts -/
theorem InRange.count_undropped (ht : InRange c t) : c.undropped.count t = c.numberOf t := by
  rw [ht.undropped.count_eq]
  simp only [Counts.perHour, Counts.perTenMinutes, Counts.perMinute, Counts.minuteStart, Counts.inMinute,
    Counts.undropped, Counts.numberOf, Counts.number]
  ring

theorem InRange.numberOf_range (hc : c.Regular) (ht : InRange c t) :
    0 ≤ c.numberOf t ∧ c.numberOf t < 86400 * c.nominal := by
  rw [← ht.count_undropped, ← c.perDay_undropped]
  exact ht.undropped.count_range hc.undropped

/-! ## Carries -/

namespace Counts

/-- frames are carried into seconds -/
theorem number_frames (c : Counts) (hour minute second frame : Int) :
    c.number hour minute second frame = c.number hour minute (second + frame / c.nominal) (frame % c.nominal) := by
  have hframe := Int.ediv_mul_add_emod frame c.nominal
  unfold number
  linarith

/-- seconds are carried into minutes -/
theorem number_seconds (c : Counts) (hour minute second frame : Int) :
    c.number hour minute second frame = c.number hour (minute + second / 60) (second % 60) frame := by
  have hsecond : (hour * 60 + minute) * 60 + second = (hour * 60 + (minute + second / 60)) * 60 + second % 60 := by
    omega
  unfold number
  rw [hsecond]

/-- minutes are carried into hours -/
theorem number_minutes (c : Counts) (hour minute second frame : Int) :
    c.number hour minute second frame = c.number (hour + minute / 60) (minute % 60) second frame := by
  have hminute : hour * 60 + minute = (hour + minute / 60) * 60 + minute % 60 := by omega
  unfold number
  rw [hminute]

/-- whole days are dropped -/
theorem number_hours (c : Counts) (hour minute second frame : Int) :
    c.number hour minute second frame =
      c.number (hour % 24) minute second frame + hour / 24 * (86400 * c.nominal) := by
  have hhour : hour = hour / 24 * 24 + hour % 24 := by omega
  calc c.number hour minute second frame
      = c.number (hour / 24 * 24 + hour % 24) minute second frame := by rw [← hhour]
    _ = c.number (hour % 24) minute second frame + hour / 24 * (86400 * c.nominal) := by
      unfold number
      ring

end Counts

/-- what fields come to: a label in range that has their number, modulo a day -/
structure Carried (c : Counts) (number : Int) (t : Timecode) : Prop extends InRange c t where
  number_eq : c.numberOf t = number % (86400 * c.nominal)

/-- numbers in range are the fields of a label, which has their number -/
theorem label_of_numbers (hc : c.Regular) {h m s f : Int} (hhour : 0 ≤ h ∧ h < 24) (hminute : 0 ≤ m ∧ m < 60)
    (hsecond : 0 ≤ s ∧ s < 60) (hframe : 0 ≤ f ∧ f < c.nominal) (rate : Fraction) :
    InRange c ⟨Int64.ofInt h, Int64.ofInt m, Int64.ofInt s, Int64.ofInt f, rate⟩ ∧
      c.numberOf ⟨Int64.ofInt h, Int64.ofInt m, Int64.ofInt s, Int64.ofInt f, rate⟩ = c.number h m s f := by
  have hmillion := hc.le_million
  have ehour := toInt_ofInt_of_nonneg hhour.1 (by omega)
  have eminute := toInt_ofInt_of_nonneg hminute.1 (by omega)
  have esecond := toInt_ofInt_of_nonneg hsecond.1 (by omega)
  have eframe := toInt_ofInt_of_nonneg hframe.1 (by omega)
  constructor
  · refine ⟨?_, ?_, ?_, ?_⟩
    · rwa [ehour]
    · rwa [eminute]
    · rwa [esecond]
    · rwa [eframe]
  · unfold Counts.numberOf
    rw [ehour, eminute, esecond, eframe]

theorem ofFields_ok (hc : counts? rate = some c) (hour minute second frame : Int64) :
    ∃ t, ofFields hour minute second frame rate = some t ∧ t.rate = rate ∧
      Carried c (c.number hour.toInt minute.toInt second.toInt frame.toInt) t := by
  have hregular := counts?_regular hc
  have hone := hregular.one_le
  unfold ofFields
  rw [hc]
  refine ⟨_, rfl, rfl, ?_⟩
  dsimp only
  rw [c.number_frames, c.number_seconds, c.number_minutes, c.number_hours]
  have hframe : 0 ≤ frame.toInt % c.nominal ∧ frame.toInt % c.nominal < c.nominal :=
    ⟨Int.emod_nonneg _ (by omega), Int.emod_lt_of_pos _ (by omega)⟩
  generalize frame.toInt % c.nominal = f at hframe ⊢
  generalize second.toInt + frame.toInt / c.nominal = s
  generalize minute.toInt + s / 60 = m
  generalize hour.toInt + m / 60 = h
  obtain ⟨hrange, hnumber⟩ := label_of_numbers hregular (h := h % 24) (m := m % 60) (s := s % 60)
    ⟨by omega, by omega⟩ ⟨by omega, by omega⟩ ⟨by omega, by omega⟩ hframe rate
  obtain ⟨hlow, hhigh⟩ := hrange.numberOf_range hregular
  rw [hnumber] at hlow hhigh
  refine ⟨hrange, ?_⟩
  rw [hnumber, Int.add_mul_emod_self_right, Int.emod_eq_of_lt hlow hhigh]

/-- fields in range are not carried -/
theorem ofFields_of_inRange (hc : counts? t.rate = some c) (ht : InRange c t) :
    ofFields t.hour t.minute t.second t.frame t.rate = some t := by
  obtain ⟨hhour, hminute, hsecond, hframe⟩ := ht
  unfold ofFields
  rw [hc]
  simp only [Option.map_some, Int.ediv_eq_zero_of_lt hframe.1 hframe.2, Int.emod_eq_of_lt hframe.1 hframe.2,
    Int.add_zero, Int.ediv_eq_zero_of_lt hsecond.1 hsecond.2, Int.emod_eq_of_lt hsecond.1 hsecond.2,
    Int.ediv_eq_zero_of_lt hminute.1 hminute.2, Int.emod_eq_of_lt hminute.1 hminute.2,
    Int.emod_eq_of_lt hhour.1 hhour.2, Int64.ofInt_toInt]

/-! ## Carries of a machine -/

/-- a field of 64 bits, if the number is one -/
def narrow? (n : Int) : Option Int64 := if Fraction.fits n then some (Int64.ofInt n) else none

theorem narrow?_eq {n : Int} (hlow : 0 ≤ n) (hhigh : n < 0x8000000000000000) : narrow? n = some (Int64.ofInt n) := by
  unfold narrow?
  exact if_pos ((Fraction.fits_iff n).2 ⟨by omega, hhigh⟩)

/-- carries computed in 128 bits, and fields that are then taken as 64-bit integers -/
def ofFieldsWithin (hour minute second frame : Int64) (rate : Fraction) : Option Timecode := do
  let c ← counts? rate
  let fromFrames ← Fraction.wide? (frame.toInt / c.nominal)
  let second ← Fraction.wide? (second.toInt + fromFrames)
  let fromSeconds ← Fraction.wide? (second / 60)
  let minute ← Fraction.wide? (minute.toInt + fromSeconds)
  let fromMinutes ← Fraction.wide? (minute / 60)
  let hour ← Fraction.wide? (hour.toInt + fromMinutes)
  let hour ← narrow? (hour % 24)
  let minute ← narrow? (minute % 60)
  let second ← narrow? (second % 60)
  let frame ← narrow? (frame.toInt % c.nominal)
  return { hour, minute, second, frame, rate }

/-- a quotient of a number below 2^66 is within 128 bits, and so is its sum with a 64-bit integer -/
theorem wide?_carry {n : Int} (base : Int) (field : Int64) (hn : n.natAbs < 0x40000000000000000) :
    Fraction.wide? (n / base) = some (n / base) ∧
      Fraction.wide? (field.toInt + n / base) = some (field.toInt + n / base) := by
  have hquotient := Int.natAbs_ediv_le_natAbs n base
  have hfield := Fraction.natAbs_toInt_le field
  constructor
  · refine Fraction.wide?_eq ?_
    unfold Fraction.wideLimit
    omega
  · refine Fraction.wide?_eq ?_
    unfold Fraction.wideLimit
    omega

/-- no carry leaves 128 bits, and no field 64 -/
theorem ofFieldsWithin_eq (hour minute second frame : Int64) (rate : Fraction) :
    ofFieldsWithin hour minute second frame rate = ofFields hour minute second frame rate := by
  unfold ofFieldsWithin ofFields
  cases hc : counts? rate with
  | none => rfl
  | some c =>
    have hregular := counts?_regular hc
    have hone := hregular.one_le
    have hmillion := hregular.le_million
    have hframe : 0 ≤ frame.toInt % c.nominal ∧ frame.toInt % c.nominal < c.nominal :=
      ⟨Int.emod_nonneg _ (by omega), Int.emod_lt_of_pos _ (by omega)⟩
    have hf := Fraction.natAbs_toInt_le frame
    have hs := Fraction.natAbs_toInt_le second
    have hm := Fraction.natAbs_toInt_le minute
    have hquotient := Int.natAbs_ediv_le_natAbs frame.toInt c.nominal
    obtain ⟨hfromFrames, hseconds⟩ := wide?_carry (n := frame.toInt) c.nominal second (by omega)
    obtain ⟨hfromSeconds, hminutes⟩ := wide?_carry (n := second.toInt + frame.toInt / c.nominal) 60 minute (by omega)
    obtain ⟨hfromMinutes, hhours⟩ :=
      wide?_carry (n := minute.toInt + (second.toInt + frame.toInt / c.nominal) / 60) 60 hour (by omega)
    simp only [Option.bind_eq_bind, Option.bind_some, Option.map_some, hfromFrames, hseconds, hfromSeconds, hminutes,
      hfromMinutes, hhours, Option.pure_def]
    rw [narrow?_eq (by omega) (by omega), narrow?_eq (by omega) (by omega), narrow?_eq (by omega) (by omega),
      narrow?_eq hframe.1 (by omega)]
    rfl

/-- **Fields are carried.** At an accepted rate any four fields make a timecode. The carries stay within 128 bits, and
the fields that are left are 64-bit integers in their ranges; they are carried no further. The label is the one that
has the number of the given fields, modulo a day, among all labels, dropped or not. So where no label is dropped its
count is that number. -/
theorem fields_carry (hc : counts? rate = some c) (hour minute second frame : Int64) :
    ∃ t, ofFields hour minute second frame rate = some t ∧ t.rate = rate ∧
      ofFieldsWithin hour minute second frame rate = some t ∧
      ((0 ≤ t.hour.toInt ∧ t.hour.toInt < 24) ∧ (0 ≤ t.minute.toInt ∧ t.minute.toInt < 60) ∧
        (0 ≤ t.second.toInt ∧ t.second.toInt < 60) ∧ 0 ≤ t.frame.toInt ∧ t.frame.toInt < c.nominal) ∧
      ofFields t.hour t.minute t.second t.frame rate = some t ∧
      c.number t.hour.toInt t.minute.toInt t.second.toInt t.frame.toInt =
        c.number hour.toInt minute.toInt second.toInt frame.toInt % (86400 * c.nominal) ∧
      (c.drop = 0 → t.toFrames.toInt =
        (((hour.toInt * 60 + minute.toInt) * 60 + second.toInt) * c.nominal + frame.toInt) %
          (86400 * c.nominal)) := by
  obtain ⟨t, hfields, hrate, hcarried⟩ := ofFields_ok hc hour minute second frame
  have hrange := hcarried.toInRange
  have hc' : counts? t.rate = some c := hrate ▸ hc
  have hagain := ofFields_of_inRange hc' hrange
  rw [hrate] at hagain
  refine ⟨t, hfields, hrate, (ofFieldsWithin_eq ..).trans hfields,
    ⟨hrange.hour, hrange.minute, hrange.second, hrange.frame⟩, hagain, hcarried.number_eq, fun hdrop => ?_⟩
  calc t.toFrames.toInt = c.count t := hrange.toInt_toFrames hc'
    _ = c.undropped.count t := by rw [Counts.undropped_eq hdrop]
    _ = c.numberOf t := hrange.count_undropped
    _ = _ := hcarried.number_eq

/-- the highest and the lowest fields at 24 frames a second -/
theorem fields_carry_extreme :
    counts? (.ofInteger 24) = some ⟨24, 0⟩ ∧
    ∃ t, ofFields Int64.minValue Int64.maxValue Int64.minValue Int64.maxValue (.ofInteger 24) = some t ∧
      ofFieldsWithin Int64.minValue Int64.maxValue Int64.minValue Int64.maxValue (.ofInteger 24) = some t ∧
      ofFields t.hour t.minute t.second t.frame (.ofInteger 24) = some t ∧ t.toFrames.toInt = 1318495 := by
  have haccepted : counts? (.ofInteger 24) = some ⟨24, 0⟩ := rfl
  obtain ⟨t, hfields, -, hwithin, -, hagain, -, hcount⟩ :=
    fields_carry haccepted Int64.minValue Int64.maxValue Int64.minValue Int64.maxValue
  exact ⟨haccepted, t, hfields, hwithin, hagain, (hcount rfl).trans (by decide)⟩

/-! ## Dropped labels -/

namespace Counts

/-- the label is a dropped one: among the first ones of a minute that is not a tenth -/
def Skips (c : Counts) (t : Timecode) : Prop :=
  t.second.toInt = 0 ∧ t.frame.toInt < c.drop ∧ t.minute.toInt % 10 ≠ 0

instance (c : Counts) (t : Timecode) : Decidable (c.Skips t) := inferInstanceAs (Decidable (_ ∧ _ ∧ _))

/-- the label with the count of a dropped one: as far before the end of the minute before as the dropped one is before
the first that is kept -/
def instead (c : Counts) (t : Timecode) : Timecode :=
  { t with
    minute := Int64.ofInt (t.minute.toInt - 1)
    second := 59
    frame := Int64.ofInt (c.nominal - c.drop + t.frame.toInt) }

/-- the label that the count of a label has -/
def relabel (c : Counts) (t : Timecode) : Timecode := if c.Skips t then c.instead t else t

end Counts

section Instead

variable (hc : c.Regular) (ht : InRange c t) (hskips : c.Skips t)

include hc ht hskips

theorem instead_fields :
    (c.instead t).minute.toInt = t.minute.toInt - 1 ∧
      (c.instead t).frame.toInt = c.nominal - c.drop + t.frame.toInt := by
  obtain ⟨hone, hmillion, hdrop, hdropLe⟩ := hc
  obtain ⟨-, hdropped, hminute⟩ := hskips
  have hframe := ht.frame
  have hminute' := ht.minute
  exact ⟨toInt_ofInt_of_nonneg (by omega) (by omega), toInt_ofInt_of_nonneg (by omega) (by omega)⟩

theorem legal_instead : Legal c (c.instead t) := by
  obtain ⟨hminute, hframe⟩ := instead_fields hc ht hskips
  obtain ⟨-, hdropped, htenth⟩ := hskips
  have hrange := ht.minute
  have hrange' := ht.frame
  have hdropLe := hc.drop_le
  have hdrop := hc.drop_nonneg
  refine ⟨⟨ht.hour, ?_, (by decide : (0 : Int) ≤ 59 ∧ (59 : Int) < 60), ?_⟩, fun h => ?_⟩
  · omega
  · omega
  · exact absurd h.1 (by decide : ¬ (59 : Int) = 0)

/-- a minute less, and the frames of a minute less the dropped ones more -/
theorem count_instead : c.count (c.instead t) = c.count t := by
  obtain ⟨hminute, hframe⟩ := instead_fields hc ht hskips
  rw [(legal_instead hc ht hskips).count_eq, ht.count_eq]
  obtain ⟨hsecond, -, htenth⟩ := hskips
  have htens : (t.minute.toInt - 1) / 10 = t.minute.toInt / 10 := by omega
  have hhour : (c.instead t).hour = t.hour := rfl
  have hlast : (c.instead t).second.toInt = 59 := rfl
  simp only [Counts.minuteStart, Counts.inMinute, Counts.perMinute, hhour, hminute, hlast, hframe, htens, hsecond]
  ring

end Instead

theorem relabel_rate (c : Counts) (t : Timecode) : (c.relabel t).rate = t.rate := by
  unfold Counts.relabel
  split <;> rfl

theorem legal_relabel (hc : c.Regular) (ht : InRange c t) : Legal c (c.relabel t) := by
  unfold Counts.relabel
  split
  · rename_i hskips
    exact legal_instead hc ht hskips
  · rename_i hkept
    exact ⟨ht, hkept⟩

theorem count_relabel (hc : c.Regular) (ht : InRange c t) : c.count (c.relabel t) = c.count t := by
  unfold Counts.relabel
  split
  · rename_i hskips
    exact count_instead hc ht hskips
  · rfl

/-- only dropped labels are relabelled -/
theorem relabel_eq_self_iff (hc : c.Regular) (ht : InRange c t) : c.relabel t = t ↔ ¬ c.Skips t := by
  constructor
  · intro hsame
    rw [← hsame]
    exact (legal_relabel hc ht).kept
  · intro hkept
    exact if_neg hkept

/-- **Counts label back, dropped labels apart.** -/
theorem ofFrames_toFrames_of_inRange (hc : counts? t.rate = some c) (ht : InRange c t) :
    ofFrames t.toFrames t.rate = some (c.relabel t) := by
  have hregular := counts?_regular hc
  refine ofFrames_count hc (relabel_rate c t) (legal_relabel hregular ht) ?_
  rw [count_relabel hregular ht, ht.toInt_toFrames hc]

/-- labels have the same count if they are relabelled alike -/
theorem toFrames_eq_iff (hc : counts? rate = some c) (ht : InRange c t) (hu : InRange c u) (hrate : t.rate = rate)
    (hrate' : u.rate = rate) : t.toFrames = u.toFrames ↔ c.relabel t = c.relabel u := by
  have hregular := counts?_regular hc
  have hback := ofFrames_toFrames_of_inRange (hrate ▸ hc) ht
  have hback' := ofFrames_toFrames_of_inRange (hrate' ▸ hc) hu
  constructor
  · intro hcount
    rw [hrate, hcount, ← hrate', hback'] at hback
    exact (Option.some.inj hback).symm
  · intro hlabel
    rw [← Int64.toInt_inj, ht.toInt_toFrames (hrate ▸ hc), hu.toInt_toFrames (hrate' ▸ hc),
      ← count_relabel hregular ht, ← count_relabel hregular hu, hlabel]

/-- a dropped label has the source of the label that counts in its place -/
theorem source_relabel (hc : counts? t.rate = some c) (ht : InRange c t) : (c.relabel t).source = t.source := by
  have hregular := counts?_regular hc
  have hrate := relabel_rate c t
  have hcount : (c.relabel t).toFrames = t.toFrames := by
    rw [toFrames_eq (hrate ▸ hc), toFrames_eq hc, count_relabel hregular ht]
  unfold source
  rw [hrate, hcount]

/-- **Labels of fields come back, unless they are dropped.** At an accepted rate let four fields make the label t. The
count of t has the label t if t is none of the dropped labels; if it is one, its count has a label of the minute before,
which `relabel` names. Two labels made of fields have the same count exactly if they are relabelled alike, so that
labels which are not dropped have counts of their own. In a session whose stack has no limit, and outside a compilation,
the source of t is a line that pushes the relabelled t. -/
theorem fields_relabelled (hc : counts? rate = some c) (hour minute second frame : Int64) :
    ∃ t, ofFields hour minute second frame rate = some t ∧ ofFrames t.toFrames rate = some (c.relabel t) ∧
      (c.relabel t = t ↔ ¬ c.Skips t) ∧
      (∀ {hour' minute' second' frame' : Int64} {u : Timecode}, ofFields hour' minute' second' frame' rate = some u →
        (t.toFrames = u.toFrames ↔ c.relabel t = c.relabel u)) ∧
      (Value.timecode t).source? = some t.source ∧
      ∀ {m : Machine}, Reachable m → m.isCompiling = false → m.stack.limit = none →
        ∃ status log, Machine.eval t.source m = .ok ()
          { m with stack := { m.stack with items := .timecode (c.relabel t) :: m.stack.items }, status, log } := by
  obtain ⟨t, hfields, rfl, hcarried⟩ := ofFields_ok hc hour minute second frame
  have hrange := hcarried.toInRange
  have hback := ofFrames_toFrames_of_inRange hc hrange
  refine ⟨t, hfields, hback, relabel_eq_self_iff (counts?_regular hc) hrange, ?_, by rw [Value.source?], ?_⟩
  · intro hour' minute' second' frame' u hfields'
    obtain ⟨u', hu', hrate', hcarried'⟩ := ofFields_ok hc hour' minute' second' frame'
    cases hfields'.symm.trans hu'
    exact toFrames_eq_iff hc hrange hcarried'.toInRange rfl hrate'
  · intro m hm hidle hlimit
    have hpush := takes_timecodeSource (answerUpTo_evolves m.allowance) hback
    rw [source_relabel hc hrange] at hpush
    have hstack : m.stack = ⟨[] ++ m.stack.items, none⟩ := by rw [← hlimit]; rfl
    obtain ⟨status, log, heval⟩ := hpush.eval hm hidle hstack
    refine ⟨status, log, ?_⟩
    rw [heval, ← hlimit]
    rfl

/-- at 30000/1001 frames a second 32 frames after 00:00:59;00 are carried to 00:01:00;02, the first label of its minute,
which comes back -/
theorem fields_relabelled_kept :
    counts? (.mk 30000 1001) = some ⟨30, 2⟩ ∧
    ∃ t m, ofFields 0 0 59 32 (.mk 30000 1001) = some t ∧ t = ⟨0, 1, 0, 2, .mk 30000 1001⟩ ∧
      ofFrames t.toFrames (.mk 30000 1001) = some t ∧
      ofFields 0 0 59 29 (.mk 30000 1001) = some ⟨0, 0, 59, 29, .mk 30000 1001⟩ ∧
      t.toFrames ≠ toFrames ⟨0, 0, 59, 29, .mk 30000 1001⟩ ∧
      Reachable m ∧ m.isCompiling = false ∧ m.stack.limit = none ∧
      ∃ status log, Machine.eval t.source m =
        .ok () { m with stack := { m.stack with items := .timecode t :: m.stack.items }, status, log } := by
  have haccepted : counts? (.mk 30000 1001) = some ⟨30, 2⟩ := rfl
  obtain ⟨m, hm, hidle, hstack⟩ := reachable_fresh
  have hlimit : m.stack.limit = none := by rw [hstack]
  obtain ⟨t, hfields, hback, hkept, hdistinct, -, heval⟩ := fields_relabelled haccepted 0 0 59 32
  obtain rfl : ⟨0, 1, 0, 2, .mk 30000 1001⟩ = t := Option.some.inj hfields
  have hsame := hkept.2 (by decide)
  have heval' := heval hm hidle hlimit
  have hearlier : ofFields 0 0 59 29 (.mk 30000 1001) = some ⟨0, 0, 59, 29, .mk 30000 1001⟩ := rfl
  have hcounts := hdistinct hearlier
  rw [hsame] at hback heval' hcounts
  refine ⟨haccepted, _, m, hfields, rfl, hback, hearlier, fun hcount => ?_, hm, hidle, hlimit, heval'⟩
  exact absurd (congrArg Timecode.minute (hcounts.1 hcount)) (by decide)

/-- at the same rate the fields 0, 1, 0 and 0 make the dropped label 00:01:00;00. Its count is that of 00:00:59;28,
which other fields make, and that label is what its source evaluates to. -/
theorem dropped_label_made :
    ∃ t u, ofFields 0 1 0 0 (.mk 30000 1001) = some t ∧ ofFields 0 0 59 28 (.mk 30000 1001) = some u ∧ u ≠ t ∧
      u.toFrames = t.toFrames ∧ ofFrames t.toFrames (.mk 30000 1001) = some u ∧
      ∃ m text, Reachable m ∧ m.isCompiling = false ∧ m.stack = ⟨[], none⟩ ∧
        (Value.timecode t).source? = some text ∧
        ∃ status log, Machine.eval text m = .ok () { m with stack := ⟨[.timecode u], none⟩, status, log } := by
  have hmade : ofFields 0 1 0 0 (.mk 30000 1001) = some ⟨0, 1, 0, 0, .mk 30000 1001⟩ := rfl
  have hlabel : ofFrames 1798 (.mk 30000 1001) = some ⟨0, 0, 59, 28, .mk 30000 1001⟩ := rfl
  obtain ⟨m, hm, hidle, hstack⟩ := reachable_fresh
  have hpush := takes_timecodeSource (answerUpTo_evolves m.allowance) hlabel
  obtain ⟨status, log, heval⟩ := hpush.eval hm hidle hstack
  refine ⟨_, _, hmade, rfl, fun hsame => ?_, rfl, hlabel, m, _, hm, hidle, hstack, by rw [Value.source?]; rfl,
    status, log, heval⟩
  exact absurd (congrArg Timecode.minute hsame) (by decide)

end ReversePolish.Timecode
