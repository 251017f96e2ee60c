/-
Sums and differences of timecodes and frame counts.

The words `+` and `-` combine frame counts modulo 2^64 and label the result modulo a day. A day has a multiple of nine
frames at every rate, and 2^64 is none, so the two reductions do not commute: a sum that leaves the range of 64-bit
integers always gets a wrong label (`shifted_exact_iff`). Two timecodes cannot leave that range, a timecode and a number
of frames can. `Operands` are the three forms of such a sum, with one lemma for what their words do. Results:
- `sums_exact_within_range`: the result is the label of the exact sum modulo a day exactly if the sum is a 64-bit
  integer, which it always is for two timecodes;
- `sum_wrong_beyond_range`: one frame after midnight plus the highest number of frames.
-/
import ReversePolish.Proofs.Timecode.Order
import ReversePolish.Proofs.Word.Spend

namespace ReversePolish

/-! ## Sums of 64 bits -/

namespace Shift

/-- the sum or difference in unbounded integers -/
def result : Shift → Int → Int → Int
  | .add, a, b => a + b
  | .sub, a, b => a - b

theorem toInt_apply (shift : Shift) (a b : Int64) :
    (shift.apply a b).toInt = (shift.result a.toInt b.toInt).bmod 0x10000000000000000 := by
  cases shift with
  | add => exact Int64.toInt_add a b
  | sub => exact Int64.toInt_sub a b

theorem result_range (shift : Shift) (a b : Int64) :
    -0x10000000000000000 ≤ shift.result a.toInt b.toInt ∧ shift.result a.toInt b.toInt < 0x10000000000000000 := by
  have ha := a.le_toInt
  have ha' := a.toInt_lt
  have hb := b.le_toInt
  have hb' := b.toInt_lt
  cases shift with
  | add => simp only [result]; omega
  | sub => simp only [result]; omega

/-- a sum is exact if it fits, and 2^64 off if not -/
theorem apply_cases (shift : Shift) (a b : Int64) :
    Fraction.fits (shift.result a.toInt b.toInt) = true ∧ (shift.apply a b).toInt = shift.result a.toInt b.toInt ∨
      ¬ Fraction.fits (shift.result a.toInt b.toInt) = true ∧
        ((shift.apply a b).toInt = shift.result a.toInt b.toInt - 0x10000000000000000 ∨
          (shift.apply a b).toInt = shift.result a.toInt b.toInt + 0x10000000000000000) := by
  have hrange := shift.result_range a b
  have hlow := (shift.apply a b).le_toInt
  have hhigh := (shift.apply a b).toInt_lt
  have hwrapped := shift.toInt_apply a b
  rw [Int.bmod_def] at hwrapped
  rw [Fraction.fits_iff]
  generalize shift.result a.toInt b.toInt = k at hrange hwrapped ⊢
  generalize (shift.apply a b).toInt = n at hlow hhigh hwrapped ⊢
  split at hwrapped <;> omega

end Shift

namespace Timecode

/-! ## Labels of unbounded counts -/

/-- the label at a number of frames since midnight, any integer, modulo a day -/
def labelAt? (frames : Int) (rate : Fraction) : Option Timecode :=
  (counts? rate).bind fun c => ofFrames (Int64.ofInt (frames % c.perDay)) rate

section Labels

variable {rate : Fraction} {c : Counts} (hc : counts? rate = some c)

include hc

theorem labelAt?_ok (frames : Int) : ∃ t, labelAt? frames rate = some t ∧ c.count t = frames % c.perDay := by
  obtain ⟨t, ht, -, hlabels⟩ := ofFrames_ok hc (Int64.ofInt (frames % c.perDay))
  refine ⟨t, ?_, ?_⟩
  · rw [labelAt?, hc]
    exact ht
  · rw [hlabels.count_eq, (counts?_regular hc).toInt_inDay, Int.emod_emod]

/-- frame counts have the same label if they differ by whole days -/
theorem labelAt?_eq_iff (frames frames' : Int) :
    labelAt? frames rate = labelAt? frames' rate ↔ frames % c.perDay = frames' % c.perDay := by
  constructor
  · intro hsame
    obtain ⟨t, ht, hcount⟩ := labelAt?_ok hc frames
    obtain ⟨t', ht', hcount'⟩ := labelAt?_ok hc frames'
    cases (ht.symm.trans hsame).trans ht'
    exact hcount.symm.trans hcount'
  · intro hsame
    rw [labelAt?, labelAt?, hc]
    simp only [Option.bind_some, hsame]

theorem ofFrames_eq_labelAt? (frames : Int64) : ofFrames frames rate = labelAt? frames.toInt rate := by
  rw [labelAt?, hc, Option.bind_some, ofFrames, ofFrames, hc]
  simp only [Option.map_some]
  rw [(counts?_regular hc).toInt_inDay, Int.emod_emod]

end Labels

/-- a day has a multiple of nine frames, and 2^64 is none -/
theorem Counts.not_perDay_dvd (c : Counts) : ¬ c.perDay ∣ 0x10000000000000000 := by
  rintro ⟨k, hk⟩
  have hnine : c.perDay * k = 144 * (c.perTenMinutes * k) := by
    unfold Counts.perDay Counts.perHour
    ring
  rw [hnine] at hk
  omega

/-- **Sums modulo a day.** A sum modulo 2^64 has the label of the exact sum exactly if that one fits 64 bits. -/
theorem shifted_exact_iff {rate : Fraction} {c : Counts} (hc : counts? rate = some c) (shift : Shift) (a b : Int64) :
    labelAt? (shift.result a.toInt b.toInt) rate = ofFrames (shift.apply a b) rate ↔
      Fraction.fits (shift.result a.toInt b.toInt) = true := by
  rw [ofFrames_eq_labelAt? hc, labelAt?_eq_iff hc]
  rcases shift.apply_cases a b with ⟨hfits, hsum⟩ | ⟨hfits, hsum⟩
  · rw [hsum]
    exact ⟨fun _ => hfits, fun _ => rfl⟩
  · -- the label of a sum that is 2^64 off would be right if 2^64 frames were whole days
    refine ⟨fun hsame => absurd ?_ c.not_perDay_dvd, fun h => absurd h hfits⟩
    have hdvd := Int.dvd_of_emod_eq_zero (Int.emod_eq_emod_iff_emod_sub_eq_zero.1 hsame)
    rcases hsum with hsum | hsum
    · rwa [hsum, Int.sub_sub_self] at hdvd
    · rwa [hsum, sub_add_cancel_left, Int.dvd_neg] at hdvd

/-! ## Operands -/

/-- the timecode is at an accepted rate, with its fields in range -/
def Ranged (t : Timecode) : Prop := ∃ c, counts? t.rate = some c ∧ InRange c t

theorem Ranged.toFrames_range {t : Timecode} (ht : t.Ranged) :
    0 ≤ t.toFrames.toInt ∧ t.toFrames.toInt < 86400 * 1000000 := by
  obtain ⟨c, hc, hrange⟩ := ht
  have hregular := counts?_regular hc
  have hday := hregular.perDay_le
  obtain ⟨hlow, hhigh⟩ := hrange.count_range hregular
  rw [hrange.toInt_toFrames hc]
  omega

end Timecode

/-- the operands of a sum or difference with a timecode in it, the lower one first -/
inductive Operands where
  | both (t u : Timecode)
  | framesOnTop (t : Timecode) (n : Int64)
  | timecodeOnTop (n : Int64) (t : Timecode)

namespace Operands

/-- the operands as they stand on the stack, the upper one first -/
def items : Operands → List Value
  | .both t u => [.timecode u, .timecode t]
  | .framesOnTop t n => [.integer n, .timecode t]
  | .timecodeOnTop n t => [.timecode t, .integer n]

/-- frames of the lower operand -/
def lower : Operands → Int64
  | .both t _ => t.toFrames
  | .framesOnTop t _ => t.toFrames
  | .timecodeOnTop n _ => n

/-- frames of the upper operand -/
def upper : Operands → Int64
  | .both _ u => u.toFrames
  | .framesOnTop _ n => n
  | .timecodeOnTop _ t => t.toFrames

/-- of two timecodes the lower one gives the rate -/
def rate : Operands → Fraction
  | .both t _ => t.rate
  | .framesOnTop t _ => t.rate
  | .timecodeOnTop _ t => t.rate

/-- the timecodes among the operands are at accepted rates, with their fields in range -/
def Ranged : Operands → Prop
  | .both t u => t.Ranged ∧ u.Ranged
  | .framesOnTop t _ => t.Ranged
  | .timecodeOnTop _ t => t.Ranged

def word (shift : Shift) : Operands → TimecodeWord
  | .both _ _ => .both shift
  | .framesOnTop _ _ => .framesOnTop shift
  | .timecodeOnTop _ _ => .timecodeOnTop shift

theorem Ranged.counts {x : Operands} (hx : x.Ranged) : ∃ c, Timecode.counts? x.rate = some c := by
  cases x with
  | both t u =>
    obtain ⟨⟨c, hc, -⟩, -⟩ := hx
    exact ⟨c, hc⟩
  | framesOnTop t n | timecodeOnTop n t =>
    obtain ⟨c, hc, -⟩ := hx
    exact ⟨c, hc⟩

/-- the counts of two timecodes are far from the limits of 64 bits -/
theorem Ranged.fits_both {t u : Timecode} (hx : Ranged (.both t u)) (shift : Shift) :
    Fraction.fits (shift.result t.toFrames.toInt u.toFrames.toInt) = true := by
  obtain ⟨ht, ht'⟩ := hx.1.toFrames_range
  obtain ⟨hu, hu'⟩ := hx.2.toFrames_range
  rw [Fraction.fits_iff]
  cases shift with
  | add => simp only [Shift.result]; omega
  | sub => simp only [Shift.result]; omega

/-- the first definition of `+` or `-` that accepts the operands -/
theorem native (x : Operands) (shift : Shift) (below : List Value) (limit : Option Nat) :
    ∃ validator, (Dictionary.nativesOf natives shift.name).find? (·.validator.accepts ⟨x.items ++ below, limit⟩) =
      some ⟨validator, .operator (.timecode (x.word shift)), .none⟩ := by
  cases x with
  | both t u | framesOnTop t n | timecodeOnTop n t => cases shift <;> exact ⟨_, rfl⟩

/-- the operands are gone before their sum is pushed -/
theorem word_run (x : Operands) (shift : Shift) (below : List Value) (limit : Option Nat) :
    (x.word shift).run ⟨x.items ++ below, limit⟩ =
      TimecodeWord.pushOr x.rate (Timecode.ofFrames (shift.apply x.lower x.upper) x.rate) ⟨below, limit⟩ := by
  cases x with
  | both t u | framesOnTop t n | timecodeOnTop n t => rfl

end Operands

theorem TimecodeWord.pushOr_some {s : Stack} (hroom : s.Fits 1) (rate : Fraction) (t : Timecode) :
    pushOr rate (some t) s = .ok () { s with items := .timecode t :: s.items } :=
  Effect.push_fits hroom (.timecode t)

/-- what `+` and `-` leave of a sum with a timecode in it -/
theorem evalOne_sum {x : Operands} {t : Timecode} {shift : Shift}
    (hsum : Timecode.ofFrames (shift.apply x.lower x.upper) x.rate = some t) {m : Machine}
    (hidle : m.isCompiling = false)
    (hnative : Dictionary.nativesOf natives shift.name <+: m.dictionary.definitions shift.name) {below : List Value}
    {limit : Option Nat} (hstack : m.stack = ⟨x.items ++ below, limit⟩) (hroom : Stack.Fits ⟨below, limit⟩ 1)
    (rest : String) :
    ∃ m', m.evalOne shift.name rest = (.ok () m', rest) ∧ m'.stack = ⟨.timecode t :: below, limit⟩ := by
  obtain ⟨validator, hfind⟩ := x.native shift below limit
  have hname := isName_of_mem_nativesOf (List.mem_of_find?_eq_some hfind)
  have hlookup := Dictionary.lookup_of_native hnative hfind
  have hrun := x.word_run shift below limit
  rw [hsum, TimecodeWord.pushOr_some hroom] at hrun
  rw [← hstack] at hlookup hrun
  exact evalOne_operator_ok hname hidle hlookup rest hrun

/-- **Sums with timecodes are exact within 64 bits.** Outside a compilation let two timecodes, or a timecode and a
number of frames in either order, be on top of the data stack, with room for the result below the limit; rates are
accepted and fields in range. `+` and `-` put a timecode u in their place. It is the label of the sum or difference of
the frame counts, brought into the range of 64-bit integers, modulo a day at the rate of the timecode, or of the lower
one of two. So it is the label of the exact sum modulo a day exactly if the exact sum is a 64-bit integer, and it always
is for two timecodes. Moving a timecode by a number of frames gives the same as their sum. -/
theorem sums_exact_within_range {x : Operands} (hx : x.Ranged) (shift : Shift) {m : Machine}
    (hidle : m.isCompiling = false)
    (hnative : Dictionary.nativesOf natives shift.name <+: m.dictionary.definitions shift.name) {below : List Value}
    {limit : Option Nat} (hstack : m.stack = ⟨x.items ++ below, limit⟩) (hroom : Stack.Fits ⟨below, limit⟩ 1)
    (rest : String) :
    ∃ u m', m.evalOne shift.name rest = (.ok () m', rest) ∧ m'.stack = ⟨.timecode u :: below, limit⟩ ∧
      Timecode.labelAt? ((shift.result x.lower.toInt x.upper.toInt).bmod 0x10000000000000000) x.rate = some u ∧
      (Timecode.labelAt? (shift.result x.lower.toInt x.upper.toInt) x.rate = some u ↔
        Fraction.fits (shift.result x.lower.toInt x.upper.toInt) = true) ∧
      (∀ t t', x = .both t t' →
        Timecode.labelAt? (shift.result t.toFrames.toInt t'.toFrames.toInt) t.rate = some u) ∧
      ∀ t n, x = .framesOnTop t n → shift = .add → t.offset n = u := by
  obtain ⟨c, hc⟩ := hx.counts
  obtain ⟨u, hu, -, -⟩ := Timecode.ofFrames_ok hc (shift.apply x.lower x.upper)
  obtain ⟨m', heval, hstack'⟩ := evalOne_sum hu hidle hnative hstack hroom rest
  have hiff := Timecode.shifted_exact_iff hc shift x.lower x.upper
  rw [hu] at hiff
  refine ⟨u, m', heval, hstack', ?_, hiff, ?_, ?_⟩
  · rw [← shift.toInt_apply, ← Timecode.ofFrames_eq_labelAt? hc, hu]
  · rintro t t' rfl
    exact hiff.2 (hx.fits_both shift)
  · rintro t n rfl rfl
    change (Timecode.ofFrames (t.toFrames + n) t.rate).getD t = u
    have hmoved : Timecode.ofFrames (t.toFrames + n) t.rate = some u := hu
    rw [hmoved, Option.getD_some]

/-- one frame after midnight plus 2^63 - 2 frames, the most that do not leave 64 bits -/
theorem sums_exact_within_range_highest :
    Operands.Ranged (.framesOnTop ⟨0, 0, 0, 1, .ofInteger 24⟩ 9223372036854775806) ∧
    ∃ (m m' : Machine) (u : Timecode), m.isCompiling = false ∧
      Dictionary.nativesOf natives "+" <+: m.dictionary.definitions "+" ∧
      m.stack = ⟨[.integer 9223372036854775806, .timecode ⟨0, 0, 0, 1, .ofInteger 24⟩, .string "a"], some 2⟩ ∧
      Stack.Fits ⟨[.string "a"], some 2⟩ 1 ∧ m.evalOne "+" "" = (.ok () m', "") ∧
      m'.stack = ⟨[.timecode u, .string "a"], some 2⟩ ∧
      Timecode.labelAt? 9223372036854775807 (.ofInteger 24) = some u ∧
      Timecode.offset ⟨0, 0, 0, 1, .ofInteger 24⟩ 9223372036854775806 = u := by
  obtain ⟨dictionary, status, log, -, hholds⟩ := start_ok (s := {}) rfl
  have hnative := hholds.built.natives_first "+"
  have hranged : Operands.Ranged (.framesOnTop ⟨0, 0, 0, 1, .ofInteger 24⟩ 9223372036854775806) :=
    ⟨⟨24, 0⟩, rfl, by decide, by decide, by decide, by decide⟩
  have hroom : Stack.Fits ⟨[.string "a"], some 2⟩ 1 := by
    rintro l ⟨⟩
    decide
  obtain ⟨u, m', heval, hstack, -, hexact, -, hoffset⟩ := sums_exact_within_range hranged .add
    (m := { dictionary, stack :=
      ⟨[.integer 9223372036854775806, .timecode ⟨0, 0, 0, 1, .ofInteger 24⟩, .string "a"], some 2⟩ })
    rfl hnative rfl hroom ""
  exact ⟨hranged, _, m', u, rfl, hnative, rfl, hroom, heval, hstack, hexact.2 rfl, hoffset _ _ rfl rfl⟩

/-- one frame more: the sum is 2^63, whose label modulo a day is 20:38:45:08, but `+` gives 03:21:14:16, and so does
moving the timecode -/
theorem sum_wrong_beyond_range :
    Operands.Ranged (.framesOnTop ⟨0, 0, 0, 1, .ofInteger 24⟩ 9223372036854775807) ∧
    Timecode.labelAt? (1 + 9223372036854775807) (.ofInteger 24) = some ⟨20, 38, 45, 8, .ofInteger 24⟩ ∧
    Timecode.offset ⟨0, 0, 0, 1, .ofInteger 24⟩ 9223372036854775807 = ⟨3, 21, 14, 16, .ofInteger 24⟩ ∧
    ∃ m m' : Machine, m.isCompiling = false ∧ Dictionary.nativesOf natives "+" <+: m.dictionary.definitions "+" ∧
      m.stack = ⟨[.integer 9223372036854775807, .timecode ⟨0, 0, 0, 1, .ofInteger 24⟩], none⟩ ∧
      m.evalOne "+" "" = (.ok () m', "") ∧ m'.stack = ⟨[.timecode ⟨3, 21, 14, 16, .ofInteger 24⟩], none⟩ := by
  obtain ⟨dictionary, status, log, -, hholds⟩ := start_ok (s := {}) rfl
  have hnative := hholds.built.natives_first "+"
  have hroom : Stack.Fits ⟨[], none⟩ 1 := by
    rintro l ⟨⟩
  have hsum : Timecode.ofFrames
      (Shift.add.apply (Timecode.toFrames ⟨0, 0, 0, 1, .ofInteger 24⟩) 9223372036854775807) (.ofInteger 24) =
        some ⟨3, 21, 14, 16, .ofInteger 24⟩ := rfl
  obtain ⟨m', heval, hstack⟩ := evalOne_sum (x := .framesOnTop ⟨0, 0, 0, 1, .ofInteger 24⟩ 9223372036854775807) hsum
    (m := { dictionary, stack := ⟨[.integer 9223372036854775807, .timecode ⟨0, 0, 0, 1, .ofInteger 24⟩], none⟩ })
    rfl hnative rfl hroom ""
  exact ⟨⟨⟨24, 0⟩, rfl, by decide, by decide, by decide, by decide⟩, rfl, rfl, _, m', rfl, hnative, rfl, heval, hstack⟩

end ReversePolish
