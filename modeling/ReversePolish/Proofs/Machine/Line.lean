/-
A line, word by word.

`evalWords` counts down the words that a line can have. Since evaluation only reads on in the line, any count from the
length of the line on gives the same result (`evalWords_eq_evalRest`), and `evalRest` evaluates what is left of the line
with no count in sight. `Leads` relates a machine to a later one, from which the rest of the line is evaluated alike: a
word that succeeds leads to the machine it leaves.
-/
import ReversePolish.Proofs.Machine.Evolution

namespace ReversePolish

/-- evaluates what is left of the line -/
def evalRest (answer : Answer) : MachineM Unit := fun m => evalWords answer m.input.length m

section Answers

variable {answer : Answer} (hanswer : ∀ r, Evolving (answer r))

theorem evalWords_succ_end {n : Nat} {m : Machine} (h : (Token.next m.input).1 = []) :
    evalWords answer (n + 1) m = .ok () { m with input := (Token.next m.input).2 } := by
  change ((if (String.ofList (Token.next m.input).1).isEmpty then pure () else _ : MachineM Unit)) _ = _
  rw [h]
  rfl

theorem evalWords_succ_word {n : Nat} {m : Machine} (h : (Token.next m.input).1 ≠ []) :
    evalWords answer (n + 1) m =
      (do evalWord answer (String.ofList (Token.next m.input).1); evalWords answer n : MachineM Unit)
        { m with input := (Token.next m.input).2 } := by
  have hne : (String.ofList (Token.next m.input).1).isEmpty = false := by
    rw [← Bool.not_eq_true, String.isEmpty_iff]
    simpa using h
  change ((if (String.ofList (Token.next m.input).1).isEmpty then pure () else _ : MachineM Unit)) _ = _
  rw [hne]
  rfl

include hanswer in
/-- two counts that are both enough give the same result -/
theorem evalWords_eq_evalWords (n k : Nat) (m : Machine) (hn : m.input.length ≤ n) (hk : m.input.length ≤ k) :
    evalWords answer n m = evalWords answer k m := by
  have hnil (m : Machine) (h : m.input.length ≤ 0) (k : Nat) : evalWords answer k m = .ok () m := by
    have hm : m.input = [] := List.length_eq_zero_iff.1 (Nat.le_zero.1 h)
    cases k with
    | zero => rfl
    | succ k =>
      rw [evalWords_succ_end (by rw [hm]; rfl), hm, Token.next_nil]
      simp only [← hm]
  induction n generalizing k m with
  | zero => rw [hnil m hn, hnil m hn]
  | succ n ih =>
    cases k with
    | zero => rw [hnil m hk, hnil m hk]
    | succ k =>
      by_cases hw : (Token.next m.input).1 = []
      · rw [evalWords_succ_end hw, evalWords_succ_end hw]
      · rw [evalWords_succ_word hw, evalWords_succ_word hw]
        change EStateM.bind _ _ _ = EStateM.bind _ _ _
        have hev := evalWord_evolves hanswer (String.ofList (Token.next m.input).1)
          { m with input := (Token.next m.input).2 }
        unfold EStateM.bind
        revert hev
        cases evalWord answer (String.ofList (Token.next m.input).1) { m with input := (Token.next m.input).2 } with
        | error f m' => exact fun _ => rfl
        | ok a m' =>
          intro hev
          have hlen : m'.input.length ≤ (Token.next m.input).2.length := hev.input.length_le
          have hshort := Token.next_length m.input hw
          exact ih k m' (by omega) (by omega)

include hanswer in
theorem evalWords_eq_evalRest {n : Nat} {m : Machine} (h : m.input.length ≤ n) :
    evalWords answer n m = evalRest answer m :=
  evalWords_eq_evalWords hanswer n _ m h le_rfl

theorem evalRest_end {m : Machine} (h : (Token.next m.input).1 = []) :
    evalRest answer m = .ok () { m with input := (Token.next m.input).2 } := by
  unfold evalRest
  cases hlen : m.input.length with
  | zero =>
    have hm : m.input = [] := List.length_eq_zero_iff.1 hlen
    rw [hm, Token.next_nil]
    simp only [← hm]
    rfl
  | succ n => exact evalWords_succ_end h

include hanswer in
theorem evalRest_word {m : Machine} (h : (Token.next m.input).1 ≠ []) :
    evalRest answer m =
      (do evalWord answer (String.ofList (Token.next m.input).1); evalRest answer : MachineM Unit)
        { m with input := (Token.next m.input).2 } := by
  have hshort := Token.next_length m.input h
  obtain ⟨n, hn⟩ : ∃ n, m.input.length = n + 1 := ⟨m.input.length - 1, by omega⟩
  rw [show evalRest answer m = evalWords answer (n + 1) m by rw [← hn]; rfl, evalWords_succ_word h]
  change EStateM.bind _ _ _ = EStateM.bind _ _ _
  have hev := evalWord_evolves hanswer (String.ofList (Token.next m.input).1) { m with input := (Token.next m.input).2 }
  unfold EStateM.bind
  revert hev
  cases evalWord answer (String.ofList (Token.next m.input).1) { m with input := (Token.next m.input).2 } with
  | error f m' => exact fun _ => rfl
  | ok a m' =>
    intro hev
    have hlen : m'.input.length ≤ (Token.next m.input).2.length := hev.input.length_le
    exact evalWords_eq_evalRest hanswer (by omega)

/-! ## Machines from which the line goes on alike -/

/-- the second machine comes from the first by evaluation, and the rest of the line is evaluated alike from both -/
structure Leads (answer : Answer) (m m' : Machine) : Prop where
  rest : evalRest answer m = evalRest answer m'
  evolves : Evolves m m'

theorem Leads.refl (m : Machine) : Leads answer m m := ⟨rfl, .refl m⟩

theorem Leads.trans {m m' m'' : Machine} (h : Leads answer m m') (h' : Leads answer m' m'') : Leads answer m m'' :=
  ⟨h.rest.trans h'.rest, h.evolves.trans h'.evolves⟩

include hanswer in
theorem Leads.word {m m' : Machine} {w rest : List Char} (hnext : Token.next m.input = (w, rest)) (hw : w ≠ [])
    (h : evalWord answer (String.ofList w) { m with input := rest } = .ok () m') : Leads answer m m' := by
  constructor
  · rw [evalRest_word hanswer (by rw [hnext]; exact hw), hnext]
    exact bind_of_ok h
  · have hsuffix := Token.next_suffix m.input
    have hword := evalWord_evolves hanswer (String.ofList w) { m with input := rest }
    rw [hnext] at hsuffix
    rw [h] at hword
    exact (Evolves.read m hsuffix).trans hword

include hanswer in
theorem evalRest_error {m m' : Machine} {w rest : List Char} {f : Fault} (hnext : Token.next m.input = (w, rest))
    (hw : w ≠ []) (h : evalWord answer (String.ofList w) { m with input := rest } = .error f m') :
    evalRest answer m = .error f m' := by
  rw [evalRest_word hanswer (by rw [hnext]; exact hw), hnext]
  exact bind_of_error h

include hanswer in
/-- a blank in front of the line does not matter -/
theorem Leads.blank {m : Machine} {c : Char} (hc : Text.isBlank c = true) (s : List Char) :
    Leads answer { m with input := c :: s } { m with input := s } := by
  have hnext := Token.next_blank hc s
  refine ⟨?_, Evolves.read { m with input := c :: s } (List.suffix_cons c s)⟩
  by_cases h : (Token.next s).1 = []
  · rw [evalRest_end (by simpa only [hnext] using h), evalRest_end (by exact h)]
    simp only [hnext]
  · rw [evalRest_word hanswer (by simpa only [hnext] using h), evalRest_word hanswer (by exact h)]
    simp only [hnext]

include hanswer in
theorem Leads.blanks {m : Machine} {bs : List Char} (hbs : ∀ c ∈ bs, Text.isBlank c = true) (s : List Char) :
    Leads answer { m with input := bs ++ s } { m with input := s } := by
  induction bs with
  | nil => exact .refl _
  | cons c bs ih =>
    exact (Leads.blank hanswer (hbs c List.mem_cons_self) (bs ++ s)).trans
      (ih fun c' hc' => hbs c' (List.mem_cons_of_mem c hc'))

include hanswer in
/-- a line is evaluated on a machine that then returns to its own line -/
theorem evalLine_eq (line : List Char) (m : Machine) :
    evalLine answer line m = onLine m.input (reported (evalRest answer { m with input := line })) := by
  rw [evalLine_onLine, evalWords_eq_evalRest hanswer (m := { m with input := line }) le_rfl]

include hanswer in
/-- the words of a line that succeeds do so -/
theorem evalLine_ok {m m₁ : Machine} {line : List Char} (h : evalLine answer line m = .ok () m₁) :
    ∃ m', evalRest answer { m with input := line } = .ok () m' ∧ m₁ = { m' with input := m.input } := by
  rw [evalLine_eq hanswer] at h
  cases hr : evalRest answer { m with input := line } with
  | error f m' =>
    rw [hr] at h
    cases h
  | ok _ m' =>
    rw [hr] at h
    cases h
    exact ⟨m', rfl, rfl⟩

end Answers

end ReversePolish
