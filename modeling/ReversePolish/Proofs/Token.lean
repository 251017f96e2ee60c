/-
How a line is read, word by word.

`next_append` gives the word that `next` reads from a text laid out as blanks, a word and a blank or the end, and
`next_layout` shows that every line is laid out so. `takeUntil_eq_some_iff` says what `takeUntil` takes. `words` lists
the words that a reader of a line meets outside comments and texts.
-/
import Mathlib.Data.List.TakeWhile
import ReversePolish.Machine.Step

namespace ReversePolish.Token

open Text

/-! ## Words and blanks -/

/-- one word: at least one character, and no blanks -/
def IsWord (w : List Char) : Prop := w ≠ [] ∧ ∀ c ∈ w, isBlank c = false

instance (w : List Char) : Decidable (IsWord w) :=
  decidable_of_iff ((!w.isEmpty && w.all (!isBlank ·)) = true) (by simp [IsWord])

/-- what may follow a word: nothing, or a blank -/
def EndsWord (r : List Char) : Prop := ∀ c t, r = c :: t → isBlank c = true

theorem endsWord_nil : EndsWord [] := by intro c t h; simp at h

theorem endsWord_blank {c : Char} (hc : isBlank c = true) (r : List Char) : EndsWord (c :: r) := by
  intro c' t h
  simp only [List.cons.injEq] at h
  rw [← h.1]
  exact hc

theorem endsWord_space (r : List Char) : EndsWord (' ' :: r) := endsWord_blank rfl r

theorem takeWhile_word {w r : List Char} (hw : ∀ c ∈ w, isBlank c = false) (hr : EndsWord r) :
    (w ++ r).takeWhile (!isBlank ·) = w := by
  rw [List.takeWhile_append_of_pos (by simpa using hw)]
  cases r with
  | nil => simp
  | cons c t => simp [hr c t rfl]

theorem dropWhile_word {w r : List Char} (hw : ∀ c ∈ w, isBlank c = false) (hr : EndsWord r) :
    (w ++ r).dropWhile (!isBlank ·) = r := by
  rw [List.dropWhile_append_of_pos (by simpa using hw)]
  cases r with
  | nil => rfl
  | cons c t => simp [hr c t rfl]

theorem endsWord_dropWhile (s : List Char) : EndsWord (s.dropWhile (!isBlank ·)) := by
  intro c t h
  have := List.head_dropWhile_not (!isBlank ·) (by rw [h]; simp : s.dropWhile (!isBlank ·) ≠ [])
  simpa [h] using this

theorem next_append {b w r : List Char} (hb : ∀ c ∈ b, isBlank c = true) (hw : ∀ c ∈ w, isBlank c = false)
    (hr : EndsWord r) (hend : w = [] → r = []) : next (b ++ w ++ r) = (w, r.drop 1) := by
  have hskip : (b ++ w ++ r).dropWhile isBlank = w ++ r := by
    rw [List.append_assoc, List.dropWhile_append_of_pos hb]
    cases w with
    | nil => rw [hend rfl]; rfl
    | cons c w => simp [hw c (by simp)]
  simp only [next, hskip, takeWhile_word hw hr, dropWhile_word hw hr]

/-- every line is blanks, a word, and a blank or the end -/
theorem next_layout (s : List Char) :
    ∃ bs w r, s = bs ++ w ++ r ∧ (∀ c ∈ bs, isBlank c = true) ∧ (∀ c ∈ w, isBlank c = false) ∧ EndsWord r ∧
      (w = [] → r = []) := by
  refine ⟨s.takeWhile isBlank, (s.dropWhile isBlank).takeWhile (!isBlank ·),
    (s.dropWhile isBlank).dropWhile (!isBlank ·), ?_, ?_, ?_, endsWord_dropWhile _, ?_⟩
  · rw [List.append_assoc, List.takeWhile_append_dropWhile, List.takeWhile_append_dropWhile]
  · exact fun c hc => List.mem_takeWhile_imp hc
  · intro c hc
    simpa using List.mem_takeWhile_imp hc
  · generalize hd : s.dropWhile isBlank = d
    intro h
    cases d with
    | nil => rfl
    | cons c t =>
      have := List.head_dropWhile_not isBlank (by rw [hd]; simp : s.dropWhile isBlank ≠ [])
      simp only [hd, List.head_cons] at this
      simp [this] at h

/-- a word at the start of a line -/
theorem next_word {w r : List Char} (hw : IsWord w) (hr : EndsWord r) : next (w ++ r) = (w, r.drop 1) :=
  next_append (b := []) (by simp) hw.2 hr fun h => absurd h hw.1

theorem next_nil : next [] = ([], []) := rfl

/-- blanks in front of a word are skipped -/
theorem next_blank {c : Char} (hc : isBlank c = true) (s : List Char) : next (c :: s) = next s := by
  simp [next, hc]

/-- where no word is left, only blanks are -/
theorem next_eq_nil {s : List Char} (h : (next s).1 = []) : ∀ c ∈ s, isBlank c = true := by
  obtain ⟨bs, w, r, rfl, hbs, hw, hr, hend⟩ := next_layout s
  rw [next_append hbs hw hr hend] at h
  subst h
  simpa [hend rfl] using hbs

theorem next_suffix (s : List Char) : (next s).2 <:+ s := by
  obtain ⟨bs, w, r, rfl, hbs, hw, hr, hend⟩ := next_layout s
  rw [next_append hbs hw hr hend]
  exact (List.drop_suffix 1 r).trans (List.suffix_append _ _)

/-- the same word is read when more follows after a blank; at the end of the first text that blank is the one dropped -/
theorem next_append_blank {c : Char} (hc : isBlank c = true) {s : List Char} (more : List Char)
    (h : (next s).1 ≠ []) :
    next (s ++ c :: more) = ((next s).1, (next s).2 ++ c :: more) ∨
      (next s).2 = [] ∧ next (s ++ c :: more) = ((next s).1, more) := by
  obtain ⟨bs, w, r, rfl, hbs, hw, hr, hend⟩ := next_layout s
  rw [next_append hbs hw hr hend] at h ⊢
  cases r with
  | nil =>
    right
    refine ⟨rfl, ?_⟩
    rw [List.append_nil, next_append hbs hw (endsWord_blank hc more) fun h' => absurd h' h]
    rfl
  | cons b t =>
    left
    have hr' : EndsWord (b :: t ++ c :: more) := by
      intro c' t' h'
      simp only [List.cons_append, List.cons.injEq] at h'
      exact h'.1 ▸ hr b t rfl
    rw [List.append_assoc (bs ++ w), next_append hbs hw hr' fun h' => absurd h' h]
    rfl

/-! ## Taking up to a delimiter -/

theorem takeUntil_eq_some_iff {d : Char} {s taken rest : List Char} :
    takeUntil d s = some (taken, rest) ↔ s = taken ++ d :: rest ∧ d ∉ taken := by
  induction s generalizing taken with
  | nil => simp [takeUntil]
  | cons c s ih =>
    unfold takeUntil
    split
    · rename_i hc
      subst hc
      cases taken with
      | nil => simp [eq_comm]
      | cons c' taken =>
        simp only [Option.some.injEq, Prod.mk.injEq, List.cons_append, List.cons.injEq, List.mem_cons, not_or]
        constructor
        · rintro ⟨h, -⟩; simp at h
        · rintro ⟨⟨rfl, -⟩, h, -⟩; exact absurd rfl h
    · rename_i hc
      cases taken with
      | nil =>
        simp only [List.nil_append, List.cons.injEq, List.not_mem_nil, not_false_eq_true, and_true]
        constructor
        · split <;> simp
        · rintro ⟨h, -⟩; exact absurd h hc
      | cons c' taken =>
        simp only [List.cons_append, List.cons.injEq, List.mem_cons, not_or]
        constructor
        · intro h
          split at h
          · rename_i t r htr
            simp only [Option.some.injEq, Prod.mk.injEq, List.cons.injEq] at h
            obtain ⟨⟨rfl, rfl⟩, rfl⟩ := h
            obtain ⟨hs, hm⟩ := ih.1 htr
            exact ⟨⟨rfl, hs⟩, fun h => hc h.symm, hm⟩
          · simp at h
        · rintro ⟨⟨rfl, hs⟩, -, hm⟩
          rw [ih.2 ⟨hs, hm⟩]

theorem takeUntil_eq_none_iff {d : Char} {s : List Char} : takeUntil d s = none ↔ d ∉ s := by
  induction s with
  | nil => simp [takeUntil]
  | cons c s ih =>
    unfold takeUntil
    by_cases hc : c = d
    · simp [hc]
    · rw [if_neg hc, List.mem_cons, not_or, ← ih]
      cases takeUntil d s with
      | none => simp [Ne.symm hc]
      | some p => simp

theorem takeUntil_length {d : Char} {s taken rest : List Char} (h : takeUntil d s = some (taken, rest)) :
    rest.length < s.length := by
  rw [(takeUntil_eq_some_iff.1 h).1, List.length_append, List.length_cons]
  omega

theorem takeUntil_suffix {d : Char} {s : List Char} {p : List Char × List Char} (h : takeUntil d s = some p) :
    p.2 <:+ s := by
  rw [(takeUntil_eq_some_iff.1 h).1]
  exact (List.suffix_cons d p.2).trans (List.suffix_append _ _)

/-- text behind the delimiter is left for later -/
theorem takeUntil_append {d : Char} {s taken rest : List Char} (more : List Char)
    (h : takeUntil d s = some (taken, rest)) : takeUntil d (s ++ more) = some (taken, rest ++ more) := by
  obtain ⟨rfl, hd⟩ := takeUntil_eq_some_iff.1 h
  exact takeUntil_eq_some_iff.2 ⟨by simp, hd⟩

/-! ## The words of a line -/

/-- what is left of the line behind a word that takes text from it: a comment or a text with its delimiter -/
def afterText (word rest : List Char) : Option (List Char) :=
  if word = "(".toList then (takeUntil ')' rest).map Prod.snd
  else if word = stringWord.toList then (takeUntil '"' rest).map Prod.snd
  else some rest

theorem afterText_length {word rest after : List Char} (h : afterText word rest = some after) :
    after.length ≤ rest.length := by
  have hdelimiter {c : Char} (h : (takeUntil c rest).map Prod.snd = some after) : after.length ≤ rest.length := by
    obtain ⟨p, hp, rfl⟩ := Option.map_eq_some_iff.1 h
    exact (takeUntil_suffix hp).length_le
  unfold afterText at h
  split at h
  · exact hdelimiter h
  · split at h
    · exact hdelimiter h
    · cases h
      exact le_rfl

/-- the words of a line that stand outside comments and texts; behind an open comment or text there are none -/
def words (line : List Char) : List String :=
  if _h : (next line).1 = [] then []
  else
    String.ofList (next line).1 ::
      match _hafter : afterText (next line).1 (next line).2 with
      | some after => words after
      | none => []
termination_by line.length
decreasing_by
  have hshort := next_length line _h
  have hrest := afterText_length _hafter
  omega

theorem words_cons {line word rest after : List Char} (hread : next line = (word, rest)) (hword : word ≠ [])
    (hafter : afterText word rest = some after) : words line = String.ofList word :: words after := by
  have hafter' : afterText (next line).1 (next line).2 = some after := by rw [hread]; exact hafter
  rw [words, dif_neg (by rw [hread]; exact hword)]
  split
  · rename_i after' h
    rw [Option.some.inj (h.symm.trans hafter'), hread]
  · rename_i h
    cases h.symm.trans hafter'

/-- a word that takes no text -/
theorem afterText_plain {word : String}
    (h : CompileWord.ofName? word = none ∨ word = "FOR" ∨ word = "NEXT" ∨ word = ";")
    (rest : List Char) : afterText word.toList rest = some rest := by
  have hne : word ≠ "(" ∧ word ≠ stringWord := by
    rcases h with h | rfl | rfl | rfl
    · constructor <;> (rintro rfl; cases h)
    all_goals exact ⟨by decide, by decide⟩
  unfold afterText
  rw [if_neg (fun h => hne.1 (String.toList_inj.1 h)), if_neg (fun h => hne.2 (String.toList_inj.1 h))]

/-! ## Literals -/

/-- a name is what is not meant as a number -/
theorem literal_eq_name_iff {w : List Char} : literal w = .name ↔ isNumeric w = false := by
  unfold literal
  cases isNumeric w with
  | false => simp
  | true =>
    simp only [Bool.not_true, Bool.false_eq_true, if_false, Bool.true_eq_false, iff_false]
    split
    · split <;> simp
    · split
      · split <;> simp
      · simp

theorem literal_integer {w : List Char} {n : Int}
    (h : isNumeric w = true ∧ w.contains '.' = false ∧ integer? w = some n ∧ Fraction.fits n = true) :
    literal w = .number (.integer (Int64.ofInt n)) := by
  obtain ⟨hnumeric, hpoint, hread, hfits⟩ := h
  simp only [literal, hnumeric, hpoint, hread, hfits]
  rfl

end ReversePolish.Token
