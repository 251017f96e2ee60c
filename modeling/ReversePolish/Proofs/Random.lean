/-
The random generator never sticks.

`InRange` are the states from 1 to 2^31 - 2. The multiplier and the modulus have no common divisor, so a step from such
a state leads to such a state, and to no state twice; seeds are brought into the range, the multiples of the modulus by
way of the default seed. Commands are the uses that lines make of the generator, and `values` what they push, computed
from the state alone. Results:
- `advance_injective`, `inRange_advance`, `inRange_reseed`: what a step and a seed do to the states;
- `Reachable.seed_inRange`: the state of every session is in range, whatever has been evaluated;
- `generator_never_sticks`: with what a line of commands pushes, and with what it depends on after a seed.
-/
import Mathlib.Data.Int.GCD
import ReversePolish.Proofs.Value.Source

namespace ReversePolish

namespace Random

/-! ## States -/

/-- the states of the generator: 1 to 2^31 - 2 -/
def InRange (state : Int64) : Prop := 1 ≤ state.toInt ∧ state.toInt ≤ modulus - 1

variable {s t : Int64}

/-- a remainder of the modulus is a 64-bit integer -/
theorem toInt_remainder (n : Int) : (Int64.ofInt (n % modulus)).toInt = n % modulus := by
  have hlow := Int.emod_nonneg n (by decide : modulus ≠ 0)
  have hhigh := Int.emod_lt_of_pos n (by decide : 0 < modulus)
  unfold modulus at *
  exact Int64.toInt_ofInt_of_le (by omega) (by omega)

/-- the product of a step stays within 64 bits -/
theorem toInt_multiplier_mul (hs : InRange s) : (multiplier * s).toInt = multiplier.toInt * s.toInt := by
  have hmultiplier : multiplier.toInt = 48271 := rfl
  obtain ⟨hlow, hhigh⟩ := hs
  unfold modulus at hhigh
  rw [Int64.toInt_mul, hmultiplier]
  exact Int.bmod_eq_of_le (by omega) (by omega)

theorem toInt_advance (hs : InRange s) : (advance s).toInt = multiplier.toInt * s.toInt % modulus := by
  rw [advance, toInt_remainder, toInt_multiplier_mul hs]

/-- the multiplier can be cancelled modulo the modulus -/
theorem dvd_of_dvd_multiplier_mul {n : Int} (h : modulus ∣ multiplier.toInt * n) : modulus ∣ n :=
  Int.dvd_of_dvd_mul_right_of_gcd_one h (by decide)

/-- a step never leads to zero, where the generator would stay -/
theorem inRange_advance (hs : InRange s) : InRange (advance s) := by
  have hlow := Int.emod_nonneg (multiplier.toInt * s.toInt) (by decide : modulus ≠ 0)
  have hhigh := Int.emod_lt_of_pos (multiplier.toInt * s.toInt) (by decide : 0 < modulus)
  have hne : multiplier.toInt * s.toInt % modulus ≠ 0 := by
    intro hzero
    have hdvd := dvd_of_dvd_multiplier_mul (Int.dvd_of_emod_eq_zero hzero)
    have hle := Int.le_of_dvd (by have := hs.1; omega) hdvd
    have := hs.2
    omega
  unfold InRange
  rw [toInt_advance hs]
  omega

/-- no two states have the same successor -/
theorem advance_injective (hs : InRange s) (ht : InRange t) (h : advance s = advance t) : s = t := by
  have hsame : multiplier.toInt * s.toInt % modulus = multiplier.toInt * t.toInt % modulus := by
    rw [← toInt_advance hs, ← toInt_advance ht, h]
  have hdvd : modulus ∣ s.toInt - t.toInt := by
    apply dvd_of_dvd_multiplier_mul
    rw [Int.mul_sub]
    exact Int.dvd_of_emod_eq_zero (Int.emod_eq_emod_iff_emod_sub_eq_zero.1 hsame)
  unfold InRange at hs ht
  rw [← Int64.toInt_inj]
  calc s.toInt = s.toInt % modulus := (Int.emod_eq_of_lt (by omega) (by omega)).symm
    _ = t.toInt % modulus := Int.emod_eq_emod_iff_emod_sub_eq_zero.2 (Int.emod_eq_zero_of_dvd hdvd)
    _ = t.toInt := Int.emod_eq_of_lt (by omega) (by omega)

/-! ## Seeds -/

/-- a seed sets its remainder, unless that is zero -/
theorem reseed_eq (n : Int64) :
    reseed n = if n.toInt % modulus = 0 then defaultSeed else Int64.ofInt (n.toInt % modulus) := by
  have hzero : Int64.ofInt (n.toInt % modulus) = 0 ↔ n.toInt % modulus = 0 := by
    rw [← Int64.toInt_inj, toInt_remainder]
    rfl
  unfold reseed
  simp only [hzero]

theorem inRange_reseed (n : Int64) : InRange (reseed n) := by
  have hlow := Int.emod_nonneg n.toInt (by decide : modulus ≠ 0)
  have hhigh := Int.emod_lt_of_pos n.toInt (by decide : 0 < modulus)
  rw [reseed_eq]
  split
  · exact ⟨by decide, by decide⟩
  · unfold InRange
    rw [toInt_remainder]
    omega

/-- seeds that differ by a multiple of the modulus set the same state -/
theorem reseed_congr {n k : Int64} (h : n.toInt % modulus = k.toInt % modulus) : reseed n = reseed k := by
  rw [reseed_eq, reseed_eq, h]

/-! ## Commands -/

/-- the uses that a line makes of the generator -/
inductive Command where
  | integer
  | unit
  | seed (n : Int64)

namespace Command

/-- the words of a command -/
def text : Command → String
  | .integer => "RAND"
  | .unit => "DRAND"
  | .seed n => Decimal.integer n.toInt ++ " RDZ"

/-- the state that a command leaves -/
def next (state : Int64) : Command → Int64
  | .integer | .unit => advance state
  | .seed n => reseed n

/-- the value that a command pushes -/
def value? (state : Int64) : Command → Option Value
  | .integer => some (.integer (advance state))
  | .unit => some (.double (Random.unit (advance state)))
  | .seed _ => none

theorem inRange_next (c : Command) (hs : InRange s) : InRange (c.next s) := by
  cases c with
  | integer | unit => exact inRange_advance hs
  | seed n => exact inRange_reseed n

end Command

/-- the state that commands leave -/
def after (state : Int64) (commands : List Command) : Int64 := commands.foldl Command.next state

/-- the values that commands push, in their order -/
def values : Int64 → List Command → List Value
  | _, [] => []
  | state, c :: rest => (c.value? state).toList ++ values (c.next state) rest

/-- the line of commands -/
def line (commands : List Command) : String := " ".intercalate (commands.map Command.text)

theorem inRange_after (hs : InRange s) (commands : List Command) : InRange (after s commands) := by
  induction commands generalizing s with
  | nil => exact hs
  | cons c rest ih => exact ih (c.inRange_next hs)

/-- integers that are pushed are states -/
theorem inRange_of_mem_values (hs : InRange s) {commands : List Command} {n : Int64}
    (h : .integer n ∈ values s commands) : InRange n := by
  induction commands generalizing s with
  | nil => cases h
  | cons c rest ih =>
    rcases List.mem_append.1 h with hfirst | hrest
    · cases c with
      | integer =>
        obtain rfl : n = advance s := by simpa [Command.value?] using hfirst
        exact inRange_advance hs
      | unit | seed => simp [Command.value?] at hfirst
    · exact ih (c.inRange_next hs) hrest

/-! ## Lines of commands -/

section Lines

variable {answer : Answer} (hanswer : ∀ r, Evolving (answer r)) {m : Machine} {items : List Value} {rest : List Char}

include hanswer in
/-- a word of the generator, which takes the first items on top of the stack to the second -/
theorem leads_word {word : String} (xs ys : List Value) {validator : Validator} (w : RandomWord) {state : Int64}
    (hword : Token.IsWord word.toList) (hname : Token.isNumeric word.toList = false)
    (hfirst : (Dictionary.nativesOf natives word).find? (·.validator.accepts ⟨xs ++ items, none⟩) =
      some ⟨validator, .random w, .extension .generator⟩)
    (hrun : ∀ input log, w.run (.extension .generator) { m with stack := ⟨xs ++ items, none⟩, input, log } =
      .ok () { m with stack := ⟨ys ++ items, none⟩, seed := state, input, log })
    (hm : Ready m (xs ++ items)) (hinput : m.input = word.toList ++ rest) (hrest : Token.EndsWord rest) :
    ∃ status log, Leads answer m
      { m with stack := ⟨ys ++ items, none⟩, seed := state, input := rest, status, log } := by
  refine Leads.of_word hanswer { m with stack := ⟨ys ++ items, none⟩, seed := state } hword hm.idle hinput hrest
    fun input log => ?_
  have hlookup : m.dictionary.lookup word m.stack = some ⟨validator, .random w, .extension .generator⟩ := by
    rw [hm.built.lookup_eq, hm.stack, hfirst]
    rfl
  rw [runWord_lookup (m := { m with input, log }) (Token.literal_eq_name_iff.2 hname) hlookup]
  rw [← hm.stack] at hrun
  exact hrun input log

include hanswer in
/-- a command pushes its value and leaves its state -/
theorem Command.leads (c : Command) (hm : Ready m items) (hinput : m.input = c.text.toList ++ rest)
    (hrest : Token.EndsWord rest) :
    ∃ status log, Leads answer m
      { m with
        stack := ⟨(c.value? m.seed).toList ++ items, none⟩, seed := c.next m.seed, input := rest, status, log } := by
  cases c with
  | integer =>
    exact leads_word hanswer [] [.integer (advance m.seed)] .integer (by decide) (by decide) rfl
      (fun _ _ => rfl) hm hinput hrest
  | unit =>
    exact leads_word hanswer [] [.double (Random.unit (advance m.seed))] .unit (by decide) (by decide) rfl
      (fun _ _ => rfl) hm hinput hrest
  | seed n =>
    have hsplit : m.input = (Decimal.integer n.toInt).toList ++ ' ' :: ("RDZ".toList ++ rest) := by
      rw [hinput]
      simp [text]
    obtain ⟨status, log, hnumber⟩ := takes_integer hanswer n m items _ hm hsplit (Token.endsWord_space _)
    obtain ⟨status', log', hseed⟩ := leads_word hanswer (m := m.holding (.integer n :: items) ("RDZ".toList ++ rest)
      status log) [.integer n] [] .seed (by decide) (by decide) rfl (fun _ _ => rfl) ⟨hm.built, hm.idle, rfl⟩ rfl hrest
    exact ⟨status', log', (hnumber.trans (.holding_blank hanswer m _ rfl _ status log)).trans hseed⟩

theorem values_cons_reverse (state : Int64) (c : Command) (commands : List Command) (items : List Value) :
    (values state (c :: commands)).reverse ++ items =
      (values (c.next state) commands).reverse ++ ((c.value? state).toList ++ items) := by
  rw [values, List.reverse_append, List.append_assoc]
  cases c.value? state <;> rfl

include hanswer in
/-- a line of commands pushes their values and leaves their state -/
theorem leads_line (commands : List Command) (hm : Ready m items) (hinput : m.input = (line commands).toList ++ rest)
    (hrest : Token.EndsWord rest) :
    ∃ status log, Leads answer m
      { m with
        stack := ⟨(values m.seed commands).reverse ++ items, none⟩
        seed := after m.seed commands, input := rest, status, log } := by
  induction commands generalizing m items with
  | nil =>
    refine ⟨m.status, m.log, ?_⟩
    have hstack := hm.stack
    cases m
    cases hinput
    cases hstack
    exact .refl _
  | cons c commands ih =>
    rw [values_cons_reverse]
    cases commands with
    | nil => exact c.leads hanswer hm (by simpa [line] using hinput) hrest
    | cons c' commands =>
      have hsplit : m.input = c.text.toList ++ ' ' :: ((line (c' :: commands)).toList ++ rest) := by
        rw [hinput]
        simp [line, String.intercalate_cons_cons]
      obtain ⟨status, log, hfirst⟩ := c.leads hanswer hm hsplit (Token.endsWord_space _)
      have hblank := Leads.blank hanswer (m := { m with
        stack := ⟨(c.value? m.seed).toList ++ items, none⟩, seed := c.next m.seed, status, log }) (c := ' ') rfl
        ((line (c' :: commands)).toList ++ rest)
      obtain ⟨status', log', hothers⟩ := ih (m := { m with
        stack := ⟨(c.value? m.seed).toList ++ items, none⟩, seed := c.next m.seed, status, log
        input := (line (c' :: commands)).toList ++ rest }) ⟨hm.built, hm.idle, rfl⟩ rfl
      exact ⟨status', log', (hfirst.trans hblank).trans hothers⟩

end Lines

end Random

/-! ## Sessions -/

theorem Change.seed_inRange {m m' : Machine} (h : Change m m') (hm : Random.InRange m.seed) :
    Random.InRange m'.seed := by
  cases h with
  | update h =>
    cases h with
    | advance => exact Random.inRange_advance hm
    | reseed n => exact Random.inRange_reseed n
    | _ => exact hm
  | edit h => cases h <;> exact hm
  | _ => exact hm

/-- the state of every session is in range, whatever has been evaluated -/
theorem Reachable.seed_inRange {m : Machine} (h : Reachable m) : Random.InRange m.seed := by
  have hdefault : Random.InRange Random.defaultSeed := ⟨by decide, by decide⟩
  exact h.keeps (P := fun m => Random.InRange m.seed) (fun _ _ _ _ _ => hdefault)
    (fun _ _ hev hm => hev.keeps (P := fun m => Random.InRange m.seed) (fun _ _ hc => hc.seed_inRange) hm)
    (fun _ _ _ _ hm => hm)

/-- a line of commands of a session whose stack has no limit -/
theorem Random.eval_line {m : Machine} (hm : Reachable m) (hidle : m.isCompiling = false) {items : List Value}
    (hstack : m.stack = ⟨items, none⟩) (commands : List Random.Command) :
    ∃ status log, Machine.eval (line commands) m = .ok ()
      { m with
        stack := ⟨(values m.seed commands).reverse ++ items, none⟩, seed := after m.seed commands, status, log } := by
  have hready : Ready { m with input := (line commands).toList } items := ⟨hm.built, hidle, hstack⟩
  obtain ⟨status, log, hleads⟩ := leads_line (answerUpTo_evolves m.allowance) commands hready
    (List.append_nil _).symm Token.endsWord_nil
  exact ⟨status, log, Leads.eval { m with
    stack := ⟨(values m.seed commands).reverse ++ items, none⟩, seed := after m.seed commands, status, log } hleads⟩

/-- **The generator never sticks.** In a session the state of the generator is in range, whatever has been evaluated. On
the states in range the product of a step stays within 64 bits, so that a step leads to its remainder, to a state in
range and to none twice. A seed sets its remainder, or the default seed if that is zero, and so a state in range.
Outside a compilation and without a limit on the stack, a line of commands succeeds: it pushes values and leaves a state
that are computed from the state alone, the state in range, and integers in range. After a seed both depend on the
remainder of the seed only. -/
theorem generator_never_sticks {m : Machine} (hm : Reachable m) :
    Random.InRange m.seed ∧
    (∀ {state : Int64}, Random.InRange state →
      (Random.multiplier * state).toInt = Random.multiplier.toInt * state.toInt ∧
        (Random.advance state).toInt = Random.multiplier.toInt * state.toInt % Random.modulus ∧
        Random.InRange (Random.advance state)) ∧
    (∀ {s t : Int64}, Random.InRange s → Random.InRange t → Random.advance s = Random.advance t → s = t) ∧
    (∀ n : Int64,
      Random.reseed n = (if n.toInt % Random.modulus = 0 then Random.defaultSeed
        else Int64.ofInt (n.toInt % Random.modulus)) ∧
      Random.InRange (Random.reseed n)) ∧
    (∀ {items : List Value}, m.isCompiling = false → m.stack = ⟨items, none⟩ → ∀ commands : List Random.Command,
      (∃ status log, Machine.eval (Random.line commands) m = .ok ()
        { m with
          stack := ⟨(Random.values m.seed commands).reverse ++ items, none⟩
          seed := Random.after m.seed commands, status, log }) ∧
      Random.InRange (Random.after m.seed commands) ∧
      ∀ {n : Int64}, .integer n ∈ Random.values m.seed commands → Random.InRange n) ∧
    ∀ {s t : Int64}, s.toInt % Random.modulus = t.toInt % Random.modulus →
      ∀ (state state' : Int64) (commands : List Random.Command),
        Random.values state (.seed s :: commands) = Random.values state' (.seed t :: commands) ∧
          Random.after state (.seed s :: commands) = Random.after state' (.seed t :: commands) := by
  have hseed := hm.seed_inRange
  refine ⟨hseed, ?_, Random.advance_injective, ?_, ?_, ?_⟩
  · intro state hstate
    exact ⟨Random.toInt_multiplier_mul hstate, Random.toInt_advance hstate, Random.inRange_advance hstate⟩
  · intro n
    exact ⟨Random.reseed_eq n, Random.inRange_reseed n⟩
  · intro items hidle hstack commands
    exact ⟨Random.eval_line hm hidle hstack commands, Random.inRange_after hseed commands,
      Random.inRange_of_mem_values hseed⟩
  · intro s t hsame state state' commands
    simp only [Random.values, Random.after, List.foldl_cons, Random.Command.next, Random.Command.value?,
      Random.reseed_congr hsame, and_self]

/-- a negative multiple of the modulus sets the default seed, and the number after it is not zero -/
theorem generator_never_sticks_multiple : ∃ m : Machine, Reachable m ∧ m.isCompiling = false ∧ m.stack = ⟨[], none⟩ ∧
    Random.InRange m.seed ∧ Random.reseed (-4294967294) = Random.defaultSeed ∧
    ∃ status log, Machine.eval "-4294967294 RDZ RAND" m = .ok ()
      { m with stack := ⟨[.integer 2010018110], none⟩, seed := 2010018110, status, log } := by
  obtain ⟨m, hm, hidle, hstack⟩ := reachable_fresh
  obtain ⟨hseed, -, -, hreseed, hline, -⟩ := generator_never_sticks hm
  have hdefault : Random.reseed (-4294967294) = Random.defaultSeed := (hreseed _).1.trans (if_pos (by decide))
  have htext : Random.line [.seed (-4294967294), .integer] = "-4294967294 RDZ RAND" := by decide +kernel
  have hstate : Random.advance (Random.reseed (-4294967294)) = 2010018110 := by decide +kernel
  have heval := (hline hidle hstack [.seed (-4294967294), .integer]).1
  simp only [htext, Random.values, Random.after, List.foldl_cons, List.foldl_nil, Random.Command.next,
    Random.Command.value?, hstate] at heval
  exact ⟨m, hm, hidle, hstack, hseed, hdefault, heval⟩

end ReversePolish
