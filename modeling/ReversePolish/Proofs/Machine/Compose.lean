/-
Lines compose.

A line that is cut at blanks is evaluated like its parts, one after the other, even where the first part leaves a
definition or a loop open. So a text is evaluated like its lines. Results:
- `evalRest_more`: what follows a line behind a blank is still to be read when the line has been evaluated;
- `eval_append`: two texts with blanks between them;
- `lines_cons`: the lines of a text, with what ends each of them;
- `lines_compose` puts these together with the files that a session evaluates.
-/
import ReversePolish.Proofs.Compilation.Sound
import ReversePolish.Proofs.Machine.Lockstep

namespace ReversePolish

/-! ## A line and what follows it -/

/-- the second machine has more text to read, and is the same otherwise; any fault of the first is a cut -/
def readGap (more : List Char) : Gap where
  loose := False
  flags on on' := on' = on
  flags_refl _ := rfl
  more := more
  cut _ := True
  limits h := h.elim
  reads := .inr fun _ => trivial

/-- the machines differ in the events of tracing only -/
def traceGap : Gap where
  loose := False
  flags on on' := on' = on
  flags_refl _ := rfl
  more := []
  cut _ := False
  limits h := h.elim
  reads := .inl rfl

/-- a machine that has read to the end of its line is in step with one that still has text to read -/
theorem InStep.ofRead {more : List Char} {m n : Machine} (h : InStep (readGap more) m n) (input : List Char) :
    InStep traceGap { m with input } { n with input } := { h with input := (List.append_nil input).symm }

theorem Machine.inStep_append {m : Machine} (hm : m.dictionary.Built natives) (line more : List Char) :
    InStep (readGap more) { m with input := line } { m with input := line ++ more } where
  stack := .inl rfl
  built := hm
  dictionary := rfl
  compilation := rfl
  scopes := rfl
  input := rfl
  tracing := rfl
  status := rfl
  callDepth := rfl
  maxCallDepth := .inl rfl
  seed := rfl
  report := rfl

/-- What follows the line of the first machine behind a blank is still to be read by the second when the first has
evaluated its line. The induction is on the length of that line: each word leaves the same text behind it, but for the
last one, which may have dropped the blank. -/
theorem evalRest_more (k : Nat) {c : Char} (hc : Text.isBlank c = true) (more : List Char) {m m' n : Machine}
    (h : InStep (readGap (c :: more)) m n) (hline : evalRest (answerUpTo k) m = .ok () m') :
    ∃ n' : Machine, InStep traceGap { m' with input := [] } { n' with input := [] } ∧
      evalRest (answerUpTo k) n = evalRest (answerUpTo k) { n' with input := more } := by
  have hanswer := answerUpTo_evolves k
  induction hlen : m.input.length using Nat.strong_induction_on generalizing m n with
  | h len ih =>
  have hinput : n.input = m.input ++ c :: more := h.input
  by_cases hw : (Token.next m.input).1 = []
  · rw [evalRest_end hw] at hline
    cases hline
    refine ⟨n, h.ofRead [], ?_⟩
    have hblanks := Leads.blanks hanswer (m := n) (Token.next_eq_nil hw) (c :: more)
    rw [← hinput] at hblanks
    exact (hblanks.trans (Leads.blank hanswer hc more)).rest
  · have hshort := Token.next_length m.input hw
    rw [evalRest_word hanswer hw] at hline
    change EStateM.bind _ _ _ = _ at hline
    unfold EStateM.bind at hline
    have hev := evalWord_evolves hanswer (String.ofList (Token.next m.input).1)
      { m with input := (Token.next m.input).2 }
    -- the word and what both machines have left behind it
    obtain ⟨more', hread, hmore'⟩ : ∃ more',
        Token.next n.input = ((Token.next m.input).1, (Token.next m.input).2 ++ more') ∧
        (more' = c :: more ∨ (Token.next m.input).2 = [] ∧ more' = more) := by
      rw [hinput]
      rcases Token.next_append_blank hc more hw with hread | ⟨hnil, hread⟩
      · exact ⟨_, hread, .inl rfl⟩
      · exact ⟨more, by rw [hread, hnil]; rfl, .inr ⟨hnil, rfl⟩⟩
    have hword := evalWord_inStep (g := readGap more') (answerUpTo_inStep k k _ (.inl rfl))
      (String.ofList (Token.next m.input).1) (m := { m with input := (Token.next m.input).2 })
      (n := { n with input := (Token.next m.input).2 ++ more' }) { h with input := rfl }
    have hright : evalRest (answerUpTo k) n =
        EStateM.bind (evalWord (answerUpTo k) (String.ofList (Token.next m.input).1))
        (fun _ => evalRest (answerUpTo k)) { n with input := (Token.next m.input).2 ++ more' } := by
      rw [evalRest_word hanswer (by rw [hread]; exact hw), hread]
      rfl
    rw [hright]
    unfold EStateM.bind
    generalize evalWord (answerUpTo k) (String.ofList (Token.next m.input).1)
      { m with input := (Token.next m.input).2 } = r at hline hev hword
    generalize evalWord (answerUpTo k) (String.ofList (Token.next m.input).1)
      { n with input := (Token.next m.input).2 ++ more' } = r' at hword ⊢
    cases hword with
    | error _ => cases hline
    | cut _ => cases hline
    | @ok _ m₁ n₁ h₁ =>
      have hsuffix : m₁.input <:+ (Token.next m.input).2 := hev.input
      have hrest := hsuffix.length_le
      dsimp only at hline ⊢
      rcases hmore' with rfl | ⟨hnil, rfl⟩
      · exact ih m₁.input.length (by omega) h₁ hline rfl
      · have hend : m₁.input = [] := List.suffix_nil.1 (hnil ▸ hsuffix)
        rw [evalRest_end (by rw [hend]; rfl)] at hline
        cases hline
        refine ⟨n₁, h₁.ofRead [], ?_⟩
        have hmore : n₁.input = more' := by rw [h₁.input, hend]; rfl
        rw [← hmore]

/-- Two texts with blanks between them: the second is evaluated on the machine that the first leaves, but for events of
tracing. -/
theorem eval_append {m m₁ : Machine} (hm : m.dictionary.Built natives) {a sep : String} (hsep : sep ≠ "")
    (hblank : ∀ c ∈ sep.toList, Text.isBlank c = true) (ha : Machine.eval a m = .ok () m₁) (b : String) :
    ∃ n, InStep traceGap m₁ n ∧ Machine.eval (a ++ sep ++ b) m = Machine.eval b n := by
  have hanswer := answerUpTo_evolves m.allowance
  obtain ⟨c, blanks, hc⟩ : ∃ c blanks, sep.toList = c :: blanks := by
    cases h : sep.toList with
    | nil => exact absurd (by simpa using h) hsep
    | cons c blanks => exact ⟨c, blanks, rfl⟩
  rw [hc] at hblank
  -- the first text has been evaluated
  obtain ⟨m', hline, rfl⟩ := evalLine_ok hanswer ha
  obtain ⟨n, hn, hrest⟩ := evalRest_more m.allowance (hblank c List.mem_cons_self) (blanks ++ b.toList)
    (Machine.inStep_append hm a.toList _) hline
  have hblanks := Leads.blanks hanswer (m := n) (fun c' hc' => hblank c' (List.mem_cons_of_mem c hc')) b.toList
  have hstep : InStep traceGap { m' with input := m.input } { n with input := m.input } :=
    { hn with input := (List.append_nil m.input).symm }
  refine ⟨{ n with input := m.input }, hstep, ?_⟩
  -- both sides now read the second text with the same nesting
  have hmax : n.maxCallDepth = m.maxCallDepth := by
    have hev := evalWords_evolves hanswer a.toList.length { m with input := a.toList }
    have hrun : evalWords (answerUpTo m.allowance) a.toList.length { m with input := a.toList } = .ok () m' := hline
    rw [hrun] at hev
    exact (hn.maxCallDepth.resolve_right fun h => h.1).trans hev.maxCallDepth
  have hallowance : Machine.allowance { n with input := m.input } = m.allowance := by
    unfold Machine.allowance
    rw [hmax]
  have htext : (a ++ sep ++ b).toList = a.toList ++ c :: (blanks ++ b.toList) := by
    simp [String.toList_append, hc]
  rw [Machine.eval, Machine.eval, hallowance, evalLine_eq hanswer, evalLine_eq hanswer, htext, hrest.trans hblanks.rest]

/-! ## Texts and their lines -/

namespace Text

variable {α : Type} [DecidableEq α]

theorem pieces_ne_nil (mark : α) (s : List α) : pieces mark s ≠ [] := by
  cases s with
  | nil => simp [pieces]
  | cons c s =>
    rw [pieces]
    split
    · simp
    · split <;> simp

theorem pieces_append {mark : α} {p : List α} (hp : mark ∉ p) (s : List α) :
    pieces mark (p ++ mark :: s) = p :: pieces mark s := by
  induction p with
  | nil => simp [pieces]
  | cons c p ih =>
    obtain ⟨hc, hp⟩ := List.ne_and_not_mem_of_not_mem_cons hp
    rw [List.cons_append, pieces, if_neg (Ne.symm hc), ih hp]

theorem pieces_of_not_mem {mark : α} {s : List α} (hs : mark ∉ s) : pieces mark s = [s] := by
  induction s with
  | nil => rfl
  | cons c s ih =>
    obtain ⟨hc, hs⟩ := List.ne_and_not_mem_of_not_mem_cons hs
    rw [pieces, if_neg (Ne.symm hc), ih hs]

/-- the first line, and those behind the line feed -/
theorem lines_cons {p : List Char} (hp : '\n' ∉ p) (s : List Char) :
    lines (p ++ '\n' :: s) = dropLastMark '\r' p :: lines s := by
  have hne := pieces_ne_nil '\n' s
  rw [lines, linesBy, pieces_append hp, List.dropLast_cons_of_ne_nil hne, List.getLast?_cons]
  cases hlast : (pieces '\n' s).getLast? with
  | none => exact absurd (List.getLast?_eq_none_iff.1 hlast) hne
  | some last => simp [lines, linesBy, hlast]

theorem lines_of_not_mem {s : List Char} (hs : '\n' ∉ s) : lines s = if s = [] then [] else [s] := by
  rw [lines, linesBy, pieces_of_not_mem hs]
  cases s <;> simp

/-- what is dropped is a carriage return, if anything -/
theorem dropLastMark_append (mark : α) (s : List α) :
    s = dropLastMark mark s ∨ s = dropLastMark mark s ++ [mark] := by
  unfold dropLastMark
  split
  · rename_i h
    exact .inr (List.dropLast_append_getLast? _ (by simpa using h)).symm
  · exact .inl rfl

end Text

/-! ## The same run, tracing apart -/

/-- the machine without the events of tracing -/
def Machine.untraced (m : Machine) : Machine := { m with log := m.report }

/-- the same result, and the same machine but for the events of tracing -/
structure SameRun (r r' : EStateM.Result Fault Machine Unit) : Prop where
  error : r.error? = r'.error?
  state : r.state.untraced = r'.state.untraced

theorem InStep.untraced_eq {m n : Machine} (h : InStep traceGap m n) : n.untraced = m.untraced := by
  have htracing : n.tracing = m.tracing := h.tracing
  have hreport := h.report
  rw [Machine.untraced, Machine.untraced, hreport, h.eq_but_tracing not_false rfl, htracing]

theorem eval_sameRun {m n : Machine} (h : InStep traceGap m n) (line : String) :
    SameRun (Machine.eval line n) (Machine.eval line m) := by
  have hruns := eval_inStep line h
  generalize Machine.eval line m = r at hruns ⊢
  generalize Machine.eval line n = r' at hruns ⊢
  cases hruns with
  | ok _ h => exact ⟨rfl, h.untraced_eq⟩
  | error h =>
    obtain ⟨rfl, h⟩ := h
    exact ⟨rfl, h.untraced_eq⟩
  | cut h => exact h.elim

/-- a run that is the same as one that succeeds -/
theorem SameRun.ok {r : EStateM.Result Fault Machine Unit} {m : Machine} (h : SameRun r (.ok () m)) :
    ∃ m', r = .ok () m' ∧ m'.untraced = m.untraced := by
  cases r with
  | ok _ m' => exact ⟨m', rfl, h.state⟩
  | error f m' => cases h.error

/-! ## Files -/

/-- what a run of lines ends with is decided by its first line and the run of the others -/
theorem runLines_cons_ok {number : Nat} {line : String} {lines : List String} {m m' : Machine}
    (h : Session.runLines number (line :: lines) m = (.ok (), m')) :
    ∃ m₁, Machine.eval line m = .ok () m₁ ∧ Session.runLines (number + 1) lines m₁ = (.ok (), m') := by
  rw [Session.runLines] at h
  cases hline : Machine.eval line m with
  | error f m₁ =>
    rw [hline] at h
    cases h
  | ok _ m₁ =>
    rw [hline] at h
    exact ⟨m₁, rfl, h⟩

/-- a text whose lines are evaluated without a fault; the induction takes off one line after the other -/
theorem eval_of_runLines (s : List Char) (number : Nat) {m m' : Machine} (hm : m.dictionary.Built natives)
    (h : Session.runLines number ((Text.lines s).map String.ofList) m = (.ok (), m')) :
    ∃ m'', Machine.eval (String.ofList s) m = .ok () m'' ∧ m''.untraced = m'.untraced := by
  induction hlen : s.length using Nat.strong_induction_on generalizing s number m with
  | h len ih =>
  cases hfeed : Token.takeUntil '\n' s with
  | none =>
    rw [Text.lines_of_not_mem (Token.takeUntil_eq_none_iff.1 hfeed)] at h
    by_cases hs : s = []
    · subst hs
      cases h
      exact ⟨m', rfl, rfl⟩
    · rw [if_neg hs] at h
      obtain ⟨m₁, hline, hrest⟩ := runLines_cons_ok h
      cases hrest
      exact ⟨m', hline, rfl⟩
  | some q =>
    obtain ⟨p, rest⟩ := q
    obtain ⟨rfl, hp⟩ := Token.takeUntil_eq_some_iff.1 hfeed
    rw [Text.lines_cons hp, List.map_cons] at h
    obtain ⟨m₁, hline, hrest⟩ := runLines_cons_ok h
    have hm₁ : m₁.dictionary.Built natives := by
      have hev := eval_evolves (String.ofList (Text.dropLastMark '\r' p)) m
      rw [hline] at hev
      exact hev.built hm
    obtain ⟨m₂, hm₂, hsame⟩ := ih rest.length (by rw [← hlen]; simp; omega) rest (number + 1) hm₁ hrest rfl
    -- the line ends with a line feed, or with a carriage return and a line feed
    obtain ⟨sep, htext, hne, hblank⟩ : ∃ sep : String,
        String.ofList (p ++ '\n' :: rest) = String.ofList (Text.dropLastMark '\r' p) ++ sep ++ String.ofList rest ∧
          sep ≠ "" ∧ ∀ c ∈ sep.toList, Text.isBlank c = true := by
      have hsplit (sep : List Char) (hsep : p ++ ['\n'] = Text.dropLastMark '\r' p ++ sep) :
          String.ofList (p ++ '\n' :: rest) =
            String.ofList (Text.dropLastMark '\r' p) ++ String.ofList sep ++ String.ofList rest := by
        rw [← String.ofList_append, ← String.ofList_append, ← hsep, List.append_assoc]
        rfl
      rcases Text.dropLastMark_append '\r' p with heq | heq
      · exact ⟨_, hsplit ['\n'] (by rw [← heq]), by decide, List.all_eq_true.1 (by decide)⟩
      · refine ⟨_, hsplit ['\r', '\n'] ?_, by decide, List.all_eq_true.1 (by decide)⟩
        calc p ++ ['\n'] = (Text.dropLastMark '\r' p ++ ['\r']) ++ ['\n'] := by rw [← heq]
          _ = Text.dropLastMark '\r' p ++ ['\r', '\n'] := by rw [List.append_assoc]; rfl
    obtain ⟨n, hn, heval⟩ := eval_append hm hne hblank hline (String.ofList rest)
    have hrun := eval_sameRun hn (String.ofList rest)
    rw [hm₂, ← heval, ← htext] at hrun
    obtain ⟨m'', hm'', huntraced⟩ := hrun.ok
    exact ⟨m'', hm'', huntraced.trans hsame⟩

/-- a run of lines that fails has evaluated the lines before the one that it names, and none behind it -/
theorem runLines_error {number : Nat} {lines : List String} {m m' : Machine} {k : Nat} {f : Fault}
    (h : Session.runLines number lines m = (.error ⟨k, f⟩, m')) :
    ∃ i line m₁ m₂, k = number + i ∧ lines[i]? = some line ∧ Machine.evalAll (lines.take i) m = .ok () m₁ ∧
      Machine.eval line m₁ = .error f m₂ ∧ m' = m₂.record (.fileStopped k m₂.status) := by
  induction lines generalizing number m with
  | nil => cases h
  | cons line lines ih =>
    rw [Session.runLines] at h
    cases hline : Machine.eval line m with
    | error f' m₁ =>
      rw [hline] at h
      cases h
      exact ⟨0, line, m, m₁, rfl, rfl, rfl, hline, rfl⟩
    | ok _ m₁ =>
      rw [hline] at h
      obtain ⟨i, line', m₂, m₃, rfl, hget, hall, hfail, hm'⟩ := ih h
      refine ⟨i + 1, line', m₂, m₃, by omega, hget, ?_, hfail, hm'⟩
      change EStateM.bind (Machine.eval line) (fun _ => Machine.evalAll (lines.take i)) m = _
      simp only [EStateM.bind, hline]
      exact hall

/-- **Lines compose.** A text that is evaluated without a fault may be followed by blanks and another text in the same
line: that is evaluated as if it came next, whatever the first text left open. So a file that is evaluated without a
fault does as one line what it does line by line. A file that fails has evaluated the lines before the failing one, that
one, and no other. -/
theorem lines_compose {m : Machine} (hm : Reachable m) :
    (∀ a sep b m₁, sep ≠ "" → (∀ c ∈ sep.toList, Text.isBlank c = true) → Machine.eval a m = .ok () m₁ →
      SameRun (Machine.eval (a ++ sep ++ b) m) (Machine.eval b m₁)) ∧
    (∀ path content m', Session.runFile path content m = (.ok (), m') →
      ∃ text m'', content = .ok text ∧ Machine.eval text m = .ok () m'' ∧ m''.untraced = m'.untraced) ∧
    ∀ path content k f m', Session.runFile path content m = (.error (.file ⟨k, f⟩), m') → 0 < k →
      ∃ text line m₁ m₂, content = .ok text ∧ ((Text.lines text.toList).map String.ofList)[k - 1]? = some line ∧
        Machine.evalAll (((Text.lines text.toList).map String.ofList).take (k - 1)) m = .ok () m₁ ∧
        Machine.eval line m₁ = .error f m₂ ∧ m' = m₂.record (.fileStopped k m₂.status) := by
  refine ⟨fun a sep b m₁ hsep hblank ha => ?_, fun path content m' h => ?_, fun path content k f m' h hk => ?_⟩
  · obtain ⟨n, hn, heval⟩ := eval_append hm.built hsep hblank ha b
    rw [heval]
    exact eval_sameRun hn b
  · cases content with
    | error e => cases h
    | ok text =>
      have hlines : Session.runText text m = (.ok (), m') := by
        simp only [Session.runFile] at h
        split at h
        · rename_i hr
          rw [hr]
          cases h
          rfl
        · cases h
      obtain ⟨m'', hm'', hsame⟩ := eval_of_runLines text.toList 1 hm.built hlines
      rw [String.ofList_toList] at hm''
      exact ⟨text, m'', rfl, hm'', hsame⟩
  · cases content with
    | error e =>
      cases h
      cases hk
    | ok text =>
      have hlines : Session.runText text m = (.error ⟨k, f⟩, m') := by
        simp only [Session.runFile] at h
        split at h
        · cases h
        · rename_i hr
          rw [hr]
          cases h
          rfl
      obtain ⟨i, line, m₁, m₂, rfl, hget, hall, hfail, hm'⟩ := runLines_error hlines
      exact ⟨text, line, m₁, m₂, rfl, by rwa [Nat.add_sub_cancel_left], by rwa [Nat.add_sub_cancel_left], hfail, hm'⟩

/-- a definition that is opened by one line and ended by the next -/
theorem lines_compose_open :
    ∃ m m₁ m₂, Reachable m ∧ Machine.eval ":" m = .ok () m₁ ∧ m₁.isCompiling = true ∧
      Machine.eval "SUM 5 FOR I I + NEXT ;" m₁ = .ok () m₂ ∧ m₂.dictionary = m.dictionary.install sumBody := by
  obtain ⟨m, hm, hidle, -⟩ := reachable_fresh
  have hanswer := answerUpTo_evolves m.allowance
  have hread : Token.next ":".toList = (":".toList, []) := by decide
  obtain ⟨status, log, hopens⟩ := Leads.opens hanswer (m := { m with input := ":".toList }) hread hidle
    (by decide : ":" ≠ "") (Token.literal_eq_name_iff.2 (by decide)) ((colon_core.append _).lookup hm.built m.stack)
    (.inl ⟨rfl, rfl⟩)
  have hfirst : Machine.eval ":" m = .ok () { m with compilation := ⟨[Body.empty .word]⟩, status, log } := by
    rw [Machine.eval, evalLine_eq hanswer, hopens.rest]
    rfl
  obtain ⟨status', log', hdefined⟩ := eval_definition hm.built hidle (defines_sum hm.built)
  have hruns := (lines_compose hm).1 ":" " " "SUM 5 FOR I I + NEXT ;" _ (by decide)
    (List.all_eq_true.1 (by decide)) hfirst
  have htext : ":" ++ " " ++ "SUM 5 FOR I I + NEXT ;" = ": SUM 5 FOR I I + NEXT ;" := by decide
  rw [htext, hdefined] at hruns
  obtain ⟨m₂, hm₂, hsame⟩ := SameRun.ok ⟨hruns.error.symm, hruns.state.symm⟩
  exact ⟨m, _, m₂, hm, hfirst, rfl, hm₂, congrArg Machine.dictionary hsame⟩

end ReversePolish
