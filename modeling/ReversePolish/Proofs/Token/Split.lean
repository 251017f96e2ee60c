/-
A line is split at its blanks.

A run is a stretch of a text that is a word, with what stands before and behind it, and it is maximal if no other run of
the text covers it. `runsFrom` finds the maximal runs character by character. The readings of a line are its maximal
runs in order, and then the empty word. The same is read at byte offsets (`nextAt`, `takeUntilAt`), where a cut inside a
character is refused. Results:
- `Run.maximalIn_iff`: a run is maximal if and only if nothing but blanks stand next to it;
- `mem_runsFrom_iff`, `pairwise_runsFrom`: the maximal runs, each once and from left to right;
- `split_eq_runs`: reading a line to its end gives the runs;
- `nextAt_eq`, `takeUntilAt_eq`: at byte offsets the same is read, and no cut is refused;
- `words_are_maximal_runs`: all of this for every text and delimiter.
-/
import ReversePolish.Proofs.Text.Offset
import ReversePolish.Proofs.Token

namespace ReversePolish.Token

open Text

variable {text front s : List Char} {c : Char}

/-! ## Runs -/

/-- a stretch of a text, and what stands before and behind it -/
@[ext] structure Run where
  before : List Char
  word : List Char
  after : List Char

namespace Run

/-- the text is made of the three parts, and the stretch is a word -/
structure In (text : List Char) (r : Run) : Prop where
  parts : text = r.before ++ r.word ++ r.after
  isWord : IsWord r.word

/-- the other run starts no later and ends no earlier -/
def CoveredBy (r r' : Run) : Prop := r'.before.length ≤ r.before.length ∧ r'.after.length ≤ r.after.length

/-- a run that only itself covers -/
def MaximalIn (text : List Char) (r : Run) : Prop := r.In text ∧ ∀ r' : Run, r'.In text → r.CoveredBy r' → r' = r

/-- what is read where the run starts: the word, and what follows it less one character -/
def reading (r : Run) : List Char × List Char := (r.word, r.after.drop 1)

end Run

/-- what may stand before a word: nothing, or a blank at the end -/
def StartsWord (front : List Char) : Prop := ∀ c, front.getLast? = some c → isBlank c = true

instance (front : List Char) : Decidable (StartsWord front) :=
  inferInstanceAs (Decidable (∀ c ∈ front.getLast?, isBlank c = true))

theorem startsWord_nil : StartsWord [] := by simp [StartsWord]

theorem startsWord_concat (front : List Char) (c : Char) : StartsWord (front ++ [c]) ↔ isBlank c = true := by
  simp [StartsWord]

theorem Run.In.before_prefix {r : Run} (h : r.In text) : r.before <+: text := by
  rw [h.parts, List.append_assoc]
  exact List.prefix_append _ _

theorem Run.In.after_suffix {r : Run} (h : r.In text) : r.after <:+ text := by
  rw [h.parts]
  exact List.suffix_append _ _

/-- a run that is covered lies inside the other, which may have more characters on either side -/
theorem Run.In.inside {r r' : Run} (h : r.In text) (h' : r'.In text) (hcovered : r.CoveredBy r') :
    ∃ left right, r.before = r'.before ++ left ∧ r'.word = left ++ r.word ++ right ∧ r.after = right ++ r'.after := by
  have hparts : r.before ++ r.word ++ r.after = r'.before ++ r'.word ++ r'.after := h.parts.symm.trans h'.parts
  have hbefore : r'.before <+: r.before :=
    List.prefix_of_prefix_length_le h'.before_prefix h.before_prefix hcovered.1
  have hafter : r'.after <:+ r.after :=
    List.suffix_of_suffix_length_le h'.after_suffix h.after_suffix hcovered.2
  obtain ⟨left, hleft⟩ := hbefore
  obtain ⟨right, hright⟩ := hafter
  refine ⟨left, right, hleft.symm, ?_, hright.symm⟩
  rw [← hleft, ← hright] at hparts
  simp only [List.append_assoc, List.append_cancel_left_eq] at hparts
  simpa only [← List.append_assoc, List.append_cancel_right_eq] using hparts.symm

/-- a run is maximal if blanks, or the ends of the text, stand next to it -/
theorem Run.maximalIn_iff {r : Run} : r.MaximalIn text ↔ r.In text ∧ StartsWord r.before ∧ EndsWord r.after := by
  constructor
  · rintro ⟨hin, hmax⟩
    refine ⟨hin, ?_, ?_⟩
    · -- a character before the run that is no blank would extend it
      intro c hc
      by_contra hblank
      obtain ⟨init, hinit⟩ := List.getLast?_eq_some_iff.1 hc
      have hlonger : Run.In text ⟨init, c :: r.word, r.after⟩ := by
        refine ⟨by simp [hin.parts, hinit], by simp, ?_⟩
        simp only [List.mem_cons, forall_eq_or_imp]
        exact ⟨by simpa using hblank, hin.isWord.2⟩
      have hsame := congrArg Run.before (hmax _ hlonger ⟨by simp [hinit], le_rfl⟩)
      simp [hinit] at hsame
    · intro c t hc
      by_contra hblank
      have hlonger : Run.In text ⟨r.before, r.word ++ [c], t⟩ := by
        refine ⟨by simp [hin.parts, hc], by simp, ?_⟩
        intro d hd
        rcases List.mem_append.1 hd with hd | hd
        · exact hin.isWord.2 d hd
        · simpa [List.mem_singleton.1 hd] using hblank
      have hsame := congrArg Run.after (hmax _ hlonger ⟨le_rfl, by simp [hc]⟩)
      simp [hc] at hsame
  · rintro ⟨hin, hstarts, hends⟩
    refine ⟨hin, ?_⟩
    intro r' hin' hcovered
    obtain ⟨left, right, hbefore, hword, hafter⟩ := hin.inside hin' hcovered
    have hleft : left = [] := by
      rcases List.eq_nil_or_concat left with h | ⟨init, c, h⟩
      · exact h
      · have hblank := hstarts c (by simp [hbefore, h])
        have hsolid := hin'.isWord.2 c (by simp [hword, h])
        simp [hblank] at hsolid
    have hright : right = [] := by
      cases right with
      | nil => rfl
      | cons c t =>
        have hblank := hends c _ hafter
        have hsolid := hin'.isWord.2 c (by simp [hword])
        simp [hblank] at hsolid
    subst hleft hright
    exact Run.ext (by simpa using hbefore.symm) (by simpa using hword) (by simpa using hafter.symm)

/-! ## Finding the runs -/

/-- the stretch without blanks at the start of what is left, behind the characters that were passed -/
def runAt (front s : List Char) : Run := ⟨front, s.takeWhile (!isBlank ·), s.dropWhile (!isBlank ·)⟩

/-- the maximal runs that start in what is left of a text -/
def runsFrom (front : List Char) : List Char → List Run
  | [] => []
  | c :: s =>
    if StartsWord front ∧ isBlank c = false then runAt front (c :: s) :: runsFrom (front ++ [c]) s
    else runsFrom (front ++ [c]) s

theorem mem_runsFrom_cons {r : Run} :
    r ∈ runsFrom front (c :: s) ↔
      ((StartsWord front ∧ isBlank c = false) ∧ r = runAt front (c :: s)) ∨ r ∈ runsFrom (front ++ [c]) s := by
  rw [runsFrom]
  split_ifs with hstart
  · simp [hstart]
  · simp [hstart]

/-- a maximal run starts at a character that is no blank, behind a blank or the start, and goes up to the next blank -/
theorem maximalIn_here_iff {r : Run} :
    r.MaximalIn (front ++ c :: s) ∧ r.before.length = front.length ↔
      (StartsWord front ∧ isBlank c = false) ∧ r = runAt front (c :: s) := by
  rw [Run.maximalIn_iff]
  constructor
  · rintro ⟨⟨hin, hstarts, hends⟩, hlength⟩
    have hparts : r.before ++ (r.word ++ r.after) = front ++ c :: s := by rw [← List.append_assoc, ← hin.parts]
    obtain ⟨hbefore, hrest⟩ := List.append_inj hparts hlength
    have hc : isBlank c = false := by
      obtain ⟨d, w, hw⟩ := List.exists_cons_of_ne_nil hin.isWord.1
      rw [hw, List.cons_append, List.cons.injEq] at hrest
      exact hin.isWord.2 c (by simp [hw, hrest.1])
    refine ⟨⟨hbefore ▸ hstarts, hc⟩, ?_⟩
    rw [runAt, ← hrest, takeWhile_word hin.isWord.2 hends, dropWhile_word hin.isWord.2 hends, ← hbefore]
  · rintro ⟨⟨hstarts, hc⟩, rfl⟩
    refine ⟨⟨⟨?_, ?_, ?_⟩, hstarts, endsWord_dropWhile _⟩, rfl⟩
    · simp only [runAt, List.append_assoc, List.takeWhile_append_dropWhile]
    · simp [runAt, hc]
    · intro d hd
      simpa using List.mem_takeWhile_imp hd

/-- the runs found are the maximal runs that start behind the characters passed -/
theorem mem_runsFrom_iff {r : Run} :
    r ∈ runsFrom front s ↔ r.MaximalIn (front ++ s) ∧ front.length ≤ r.before.length := by
  induction s generalizing front with
  | nil =>
    constructor
    · intro hr
      cases hr
    · rintro ⟨hmax, hle⟩
      have hlength := congrArg List.length hmax.1.parts
      have hword := List.length_pos_iff.2 hmax.1.isWord.1
      simp only [List.length_append, List.length_nil] at hlength
      omega
  | cons c s ih =>
    rw [mem_runsFrom_cons, ← maximalIn_here_iff, ih, List.append_assoc, List.singleton_append, ← and_or_left,
      List.length_append, List.length_singleton]
    refine and_congr_right fun _ => ?_
    omega

theorem pairwise_runsFrom (front s : List Char) :
    (runsFrom front s).Pairwise fun r r' => r.before.length < r'.before.length := by
  induction s generalizing front with
  | nil => exact .nil
  | cons c s ih =>
    rw [runsFrom]
    split_ifs
    · refine List.pairwise_cons.2 ⟨?_, ih _⟩
      intro r hr
      have hle := (mem_runsFrom_iff.1 hr).2
      rw [List.length_append, List.length_singleton] at hle
      exact hle
    · exact ih _

/-! ## Reading a line to its end -/

/-- what is read when so many words have been read before -/
def nextAfter : Nat → List Char → List Char × List Char
  | 0, line => next line
  | k + 1, line => nextAfter k (next line).2

theorem split_eq_nextAfter (line : List Char) :
    split line = (List.range (split line).length).map (nextAfter · line) := by
  induction line using split.induct with
  | case1 line h =>
    rw [split, dif_pos h]
    rfl
  | case2 line h ih =>
    rw [split, dif_neg h, List.length_cons, List.range_succ_eq_map, List.map_cons, List.map_map]
    exact congrArg (next line :: ·) ih

theorem runsFrom_blank (hc : isBlank c = true) (front s : List Char) :
    runsFrom front (c :: s) = runsFrom (front ++ [c]) s := by
  simp [runsFrom, hc]

theorem runsFrom_blanks {bs : List Char} (hbs : ∀ c ∈ bs, isBlank c = true) (front s : List Char) :
    runsFrom front (bs ++ s) = runsFrom (front ++ bs) s := by
  induction bs generalizing front with
  | nil => simp
  | cons c bs ih =>
    rw [List.cons_append, runsFrom_blank (hbs c (by simp)), ih fun d hd => hbs d (by simp [hd])]
    simp

/-- inside a word no run starts -/
theorem runsFrom_inside {w : List Char} (hw : ∀ c ∈ w, isBlank c = false) (hfront : ¬ StartsWord front)
    (s : List Char) : runsFrom front (w ++ s) = runsFrom (front ++ w) s := by
  induction w generalizing front with
  | nil => simp
  | cons c w ih =>
    have hc : isBlank c = false := hw c (by simp)
    have hinside : ¬ StartsWord (front ++ [c]) := by simp [startsWord_concat, hc]
    rw [List.cons_append, runsFrom, if_neg (fun h => hfront h.1), ih (fun d hd => hw d (by simp [hd])) hinside]
    simp

theorem runsFrom_word {w r : List Char} (hw : IsWord w) (hr : EndsWord r) (hfront : StartsWord front) :
    runsFrom front (w ++ r) = ⟨front, w, r⟩ :: runsFrom (front ++ w) r := by
  obtain ⟨c, w', rfl⟩ := List.exists_cons_of_ne_nil hw.1
  have hc : isBlank c = false := hw.2 c (by simp)
  have hinside : ¬ StartsWord (front ++ [c]) := by simp [startsWord_concat, hc]
  have hrun : runAt front (c :: w' ++ r) = ⟨front, c :: w', r⟩ := by
    rw [runAt, takeWhile_word hw.2 hr, dropWhile_word hw.2 hr]
  rw [List.cons_append, runsFrom, if_pos ⟨hfront, hc⟩, ← List.cons_append, hrun,
    runsFrom_inside (fun d hd => hw.2 d (by simp [hd])) hinside]
  simp

theorem startsWord_blanks {bs : List Char} (hfront : StartsWord front) (hbs : ∀ c ∈ bs, isBlank c = true) :
    StartsWord (front ++ bs) := by
  rcases List.eq_nil_or_concat bs with rfl | ⟨init, c, rfl⟩
  · simpa using hfront
  · rw [List.concat_eq_append, ← List.append_assoc, startsWord_concat]
    exact hbs c (by simp)

/-- the step is one word: behind it and its blank the next run may start -/
theorem split_eq_runs (hfront : StartsWord front) (line : List Char) :
    split line = (runsFrom front line).map Run.reading ++ [([], [])] := by
  induction line using split.induct generalizing front with
  | case1 line h =>
    have hblank := next_eq_nil h
    have hread : next line = ([], []) := by
      simpa using next_append hblank (w := []) (by simp) endsWord_nil fun _ => rfl
    have hnone : runsFrom front line = [] := by
      simpa [runsFrom] using runsFrom_blanks hblank front []
    rw [split, dif_pos h, hread, hnone]
    rfl
  | case2 line h ih =>
    obtain ⟨bs, w, r, hline, hbs, hw, hr, hend⟩ := next_layout line
    have hread : next line = (w, r.drop 1) := hline ▸ next_append hbs hw hr hend
    rw [hread] at h ih
    have hruns : runsFrom front line = ⟨front ++ bs, w, r⟩ :: runsFrom (front ++ bs ++ w) r := by
      rw [hline, List.append_assoc, runsFrom_blanks hbs, runsFrom_word ⟨h, hw⟩ hr (startsWord_blanks hfront hbs)]
    have hrest : split (r.drop 1) = (runsFrom (front ++ bs ++ w) r).map Run.reading ++ [([], [])] := by
      cases r with
      | nil =>
        have hdone : split [] = (runsFrom [] []).map Run.reading ++ [([], [])] := ih startsWord_nil
        exact hdone
      | cons b t =>
        have hb : isBlank b = true := hr b t rfl
        rw [runsFrom_blank hb]
        exact ih ((startsWord_concat _ b).2 hb)
    rw [split, dif_neg (by rw [hread]; exact h), hread, hrest, hruns]
    rfl

/-! ## Reading at byte offsets -/

/-- the next word and the rest of the line: the line is cut before its first character that is no blank, and what
follows is cut at its first blank, for the word, and one byte behind it, for the rest -/
def nextAt (line : String) : Except BadOffset (String × String) := do
  let trimmed := (← cut line ((offset? (!isBlank ·) line).getD line.utf8ByteSize)).2
  (offset? isBlank trimmed).elim (pure (trimmed, "")) fun stop => do
    return ((← cut trimmed stop).1, (← cut trimmed (stop + 1)).2)

/-- what is taken up to a delimiter, if there is one, and what is left of the text: all of it, or what follows the bytes
of the delimiter -/
def takeUntilAt (delimiter : Char) (text : String) : Except BadOffset (Option String × String) :=
  (offset? (· == delimiter) text).elim (pure (none, text)) fun stop => do
    return (some (← cut text stop).1, (← cut text (stop + delimiter.utf8Size)).2)

/-- a blank takes one byte -/
theorem utf8Size_of_isBlank (h : isBlank c = true) : c.utf8Size = 1 := by
  simp only [isBlank, Bool.or_eq_true, beq_iff_eq] at h
  rcases h with (((h | h) | h) | h) | h <;> subst h <;> decide

theorem nextAt_eq (line : String) :
    nextAt line = .ok (String.ofList (next line.toList).1, String.ofList (next line.toList).2) := by
  obtain ⟨bs, w, r, hline, hbs, hw, hr, hend⟩ := next_layout line.toList
  have htext : line = String.ofList (bs ++ (w ++ r)) := by rw [← List.append_assoc, ← hline, String.ofList_toList]
  have hstart : ∀ c t, w ++ r = c :: t → (!isBlank c) = true := by
    intro c t h
    cases w with
    | nil => simp [hend rfl] at h
    | cons d w' =>
      rw [List.cons_append, List.cons.injEq] at h
      simp [← h.1, hw d (by simp)]
  have htrimmed := cut_first (p := (!isBlank ·)) (by simpa using hbs) hstart
  rw [← htext] at htrimmed
  rw [hline, next_append hbs hw hr hend, nextAt, htrimmed]
  change (offset? isBlank (String.ofList (w ++ r))).elim _ _ = _
  cases r with
  | nil =>
    rw [List.append_nil, offset?_eq_none hw]
    rfl
  | cons b t =>
    have hb : isBlank b = true := hr b t rfl
    have hword : cut (String.ofList (w ++ b :: t)) (String.ofList w).utf8ByteSize =
        .ok (String.ofList w, String.ofList (b :: t)) := cut_eq_ok_iff.2 ⟨String.ofList_append, rfl⟩
    have hrest := cut_behind w b t
    rw [utf8Size_of_isBlank hb] at hrest
    rw [offset?_append hw hb, Option.elim_some, hword, hrest]
    rfl

theorem takeUntilAt_eq (delimiter : Char) (text : String) :
    takeUntilAt delimiter text =
      .ok ((takeUntil delimiter text.toList).elim (none, text)
        fun p => (some (String.ofList p.1), String.ofList p.2)) := by
  have htext : text = String.ofList text.toList := String.ofList_toList.symm
  have hother {s : List Char} (hd : delimiter ∉ s) : ∀ c ∈ s, (c == delimiter) = false := by
    intro c hc
    exact beq_false_of_ne fun h => hd (h ▸ hc)
  cases htaken : takeUntil delimiter text.toList with
  | none =>
    have hoffset := offset?_eq_none (hother (takeUntil_eq_none_iff.1 htaken))
    rw [← htext] at hoffset
    rw [takeUntilAt, hoffset]
    rfl
  | some p =>
    obtain ⟨taken, rest⟩ := p
    obtain ⟨hparts, hd⟩ := takeUntil_eq_some_iff.1 htaken
    have htake : cut (String.ofList (taken ++ delimiter :: rest)) (String.ofList taken).utf8ByteSize =
        .ok (String.ofList taken, String.ofList (delimiter :: rest)) := cut_eq_ok_iff.2 ⟨String.ofList_append, rfl⟩
    rw [htext, hparts, takeUntilAt, offset?_append (hother hd) (beq_self_eq_true delimiter), Option.elim_some,
      htake, cut_behind]
    rfl

/-- **A text is split at its blanks, and at nothing else.** Reading word by word ends: so many readings as there are
maximal runs of characters that are no blanks give these runs from left to right, each with the text that follows it
less one blank, and one more gives the empty word with nothing left. A text is taken up to a delimiter if and only if
the delimiter occurs; what is taken, the delimiter and what is left are then the text, with no delimiter in what is
taken, and otherwise all of the text is left. At byte offsets the same is read, so every cut of the UTF-8 bytes stands
between two characters or at an end. -/
theorem words_are_maximal_runs (text : String) (delimiter : Char) :
    (∃ runs : List Run,
      (∀ r, r ∈ runs ↔ r.MaximalIn text.toList) ∧ runs.Pairwise (fun r r' => r.before.length < r'.before.length) ∧
      (∀ r ∈ runs, EndsWord r.after) ∧
      split text.toList = (List.range (runs.length + 1)).map (nextAfter · text.toList) ∧
      split text.toList = runs.map Run.reading ++ [([], [])]) ∧
    ((takeUntil delimiter text.toList).isSome = true ↔ delimiter ∈ text.toList) ∧
    (∀ taken rest, takeUntil delimiter text.toList = some (taken, rest) ↔
      text.toList = taken ++ delimiter :: rest ∧ delimiter ∉ taken) ∧
    nextAt text = .ok (String.ofList (next text.toList).1, String.ofList (next text.toList).2) ∧
    takeUntilAt delimiter text =
      .ok ((takeUntil delimiter text.toList).elim (none, text)
        fun p => (some (String.ofList p.1), String.ofList p.2)) := by
  have hruns (r : Run) : r ∈ runsFrom [] text.toList ↔ r.MaximalIn text.toList := by simp [mem_runsFrom_iff]
  refine ⟨⟨runsFrom [] text.toList, hruns, pairwise_runsFrom _ _, ?_, ?_, split_eq_runs startsWord_nil _⟩, ?_,
    fun taken rest => takeUntil_eq_some_iff, nextAt_eq text, takeUntilAt_eq delimiter text⟩
  · intro r hr
    exact (Run.maximalIn_iff.1 ((hruns r).1 hr)).2.2
  · have hcount : (split text.toList).length = (runsFrom [] text.toList).length + 1 := by
      rw [split_eq_runs startsWord_nil, List.length_append, List.length_map, List.length_singleton]
    rw [← hcount]
    exact split_eq_nextAfter text.toList
  · rw [← not_iff_not, Option.not_isSome_iff_eq_none]
    exact takeUntil_eq_none_iff

/-- blanks in front are skipped, and one blank is dropped behind a word -/
example : split " é\t B".toList = [("é".toList, " B".toList), ("B".toList, []), ([], [])] := by cbv

end ReversePolish.Token
