/-
What a definition has captured.

A line `: name text ;` may fail at any word of the text. If it succeeds, every word of the text was captured, every
comment, text and loop in it is complete, and the line installs the items that the text stands for. Results:
- `capturesShorter`: text in front of the end of a definition is captured up to the next loop end, or wholly;
- `definition_ok`: a definition that succeeds installs the items of its text and changes nothing else.
-/
import ReversePolish.Proofs.Session

namespace ReversePolish

/-! ## Text in front of the end of a definition -/

/-- what is left to read while the text s stands before the end of a definition; the blank between them is dropped with
the last word of the text -/
def BeforeEnd (s input : List Char) : Prop := input = s ++ [' ', ';'] ∨ s = [] ∧ input = [';']

namespace BeforeEnd

variable {s input : List Char}

/-- no word is left in the text, so the next one is the end of the definition -/
theorem next_end (h : BeforeEnd s input) (hs : (Token.next s).1 = []) : Token.next input = (";".toList, []) := by
  rcases h with rfl | ⟨rfl, rfl⟩
  · obtain ⟨bs, w, r, rfl, hbs, hw, hr, hend⟩ := Token.next_layout s
    rw [Token.next_append hbs hw hr hend] at hs
    obtain rfl : w = [] := hs
    obtain rfl := hend rfl
    have hblank : ∀ c ∈ bs ++ [' '], Text.isBlank c = true := by
      intro c hc
      rcases List.mem_append.1 hc with hc | hc
      · exact hbs c hc
      · obtain rfl : c = ' ' := by simpa using hc
        rfl
    have hread := Token.next_append (w := [';']) (r := []) hblank (by decide : Token.IsWord [';']).2
      Token.endsWord_nil (by simp)
    simpa using hread
  · rfl

/-- a word of the text is read, and the rest of the text is left before the end -/
theorem next_word (h : BeforeEnd s input) (hs : (Token.next s).1 ≠ []) :
    ∃ rest, Token.next input = ((Token.next s).1, rest) ∧ BeforeEnd (Token.next s).2 rest := by
  rcases h with rfl | ⟨rfl, rfl⟩
  · rcases Token.next_append_blank (c := ' ') rfl [';'] hs with hread | ⟨hnil, hread⟩
    · exact ⟨_, hread, .inl rfl⟩
    · exact ⟨_, hread, .inr ⟨hnil, rfl⟩⟩
  · exact absurd rfl hs

/-- a text or a comment that is complete before the end is complete in the text -/
theorem takeUntil (h : BeforeEnd s input) {c : Char} (hc : c ∉ [' ', ';']) {taken rest : List Char}
    (htaken : Token.takeUntil c input = some (taken, rest)) :
    ∃ after, Token.takeUntil c s = some (taken, after) ∧ BeforeEnd after rest := by
  rcases h with rfl | ⟨rfl, rfl⟩
  · cases hs : Token.takeUntil c s with
    | none =>
      have hnone : Token.takeUntil c (s ++ [' ', ';']) = none := by
        rw [Token.takeUntil_eq_none_iff, List.mem_append, not_or]
        exact ⟨Token.takeUntil_eq_none_iff.1 hs, hc⟩
      cases hnone.symm.trans htaken
    | some found =>
      obtain ⟨taken', after⟩ := found
      rw [Token.takeUntil_append _ hs] at htaken
      cases htaken
      exact ⟨after, rfl, .inl rfl⟩
  · have hnone : Token.takeUntil c [';'] = none :=
      Token.takeUntil_eq_none_iff.2 fun h => hc (List.mem_cons_of_mem _ h)
    cases hnone.symm.trans htaken

end BeforeEnd

/-! ## What a definition that succeeds has captured -/

section Capturing

variable {answer : Answer}

/-- the first word of a line that succeeds does so -/
theorem evalRest_ok (hanswer : ∀ r, Evolving (answer r)) {m m₁ : Machine} {w rest : List Char}
    (hnext : Token.next m.input = (w, rest)) (hw : w ≠ []) (h : evalRest answer m = .ok () m₁) :
    ∃ m', evalWord answer (String.ofList w) { m with input := rest } = .ok () m' ∧ evalRest answer m' = .ok () m₁ := by
  rw [evalRest_word hanswer (by rw [hnext]; exact hw), hnext] at h
  change EStateM.bind _ _ _ = _ at h
  unfold EStateM.bind at h
  split at h
  · rename_i m' hr
    exact ⟨m', hr, h⟩
  · cases h

/-- in a compilation, the word that ends a definition succeeds in a definition only -/
theorem evalWord_end_ok {m m' : Machine} (b : Body) (outer : List Body) (frames : m.compilation = ⟨b :: outer⟩)
    (h : evalWord answer ";" m = .ok () m') :
    b.kind = .word ∧
      ∃ status log, m' = { m.reading outer m.input status log with dictionary := m.dictionary.install b } := by
  have hactive := Machine.isCompiling_of_frames frames
  rcases evalWord_capturing (by decide : ";" ≠ "") hactive h with
    ⟨_, _, _, _, hcap, -⟩ | ⟨b', rest, status, log, hends, rfl⟩ | ⟨b', hcloses⟩
  · cases hcap with
    | name b' rest frames' waiting fit => cases fit.2.2
    | comment _ _ _ _ opens => exact absurd opens (by decide)
    | literal _ _ _ _ opens => exact absurd opens (by decide)
    | loop _ _ _ _ opens => exact absurd opens (by decide)
    | nest _ _ _ _ _ _ closes => exact absurd closes (by decide)
    | word _ _ _ _ plain => cases plain
  · cases frames.symm.trans hends.frames
    exact ⟨hends.kind, status, log, rfl⟩
  · exact absurd hcloses.word (by decide)

/-- in a compilation, the word that closes a loop succeeds in a loop only -/
theorem evalWord_next_ok {m m' : Machine} (b : Body) (outer : List Body) (frames : m.compilation = ⟨b :: outer⟩)
    (h : evalWord answer "NEXT" m = .ok () m') :
    b.kind = .loop ∧ ∀ around rest, outer = around :: rest →
      ∃ status log, m' = m.reading (around.push (.block b) :: rest) m.input status log := by
  have hactive := Machine.isCompiling_of_frames frames
  rcases evalWord_capturing (by decide : "NEXT" ≠ "") hactive h with
    ⟨_, _, status, log, hcap, rfl⟩ | ⟨b', rest, _, _, hends, -⟩ | ⟨b', hcloses⟩
  · cases hcap with
    | name b' rest frames' waiting fit => cases fit.2.2
    | comment _ _ _ _ opens => exact absurd opens (by decide)
    | literal _ _ _ _ opens => exact absurd opens (by decide)
    | loop _ _ _ _ opens => exact absurd opens (by decide)
    | nest b' outer' rest' frames' _ kind closes =>
      cases frames.symm.trans frames'
      refine ⟨kind, fun around rest hout => ?_⟩
      cases hout
      exact ⟨status, log, rfl⟩
    | word _ _ _ _ plain => cases plain
  · exact absurd hends.word (by decide)
  · cases frames.symm.trans hcloses.frames
    exact ⟨hcloses.kind, fun _ _ hout => by cases hout⟩

/-- the text uses none of the words that begin or end a definition, and not the name -/
def Avoids (name : String) (s : List Char) : Prop := ∀ w ∈ Token.words s, w ≠ ":" ∧ w ≠ ";" ∧ w ≠ name

theorem Avoids.next {name word : String} {s rest after : List Char} (h : Avoids name s)
    (hread : Token.next s = (word.toList, rest)) (hword : word ≠ "")
    (hafter : Token.afterText word.toList rest = some after) :
    (word ≠ ":" ∧ word ≠ ";" ∧ word ≠ name) ∧ Avoids name after := by
  have hwords := Token.words_cons hread (by simpa using hword) hafter
  rw [String.ofList_toList] at hwords
  refine ⟨h word (by rw [hwords]; exact List.mem_cons_self), fun w hw => h w ?_⟩
  rw [hwords]
  exact List.mem_cons_of_mem _ hw

/-- the machine fills a body of the definition of a name; the scope lists the variables of the loops around -/
structure Fills (d : Dictionary) (name : String) (scope : List String) (m : Machine) (b : Body) (outer : List Body) :
    Prop where
  dictionary : m.dictionary = d
  frames : m.compilation = ⟨b :: outer⟩
  named : b.ident ≠ ""
  locals : ∀ f ∈ b :: outer, f.locals = []
  idents : (b :: outer).map Body.ident = scope ++ [name]

theorem Fills.push {d : Dictionary} {name : String} {scope : List String} {m : Machine} {b : Body} {outer : List Body}
    (h : Fills d name scope m b outer) (items : List Item) (input : List Char) (status : String) (log : List Event) :
    Fills d name scope (m.reading (b.pushAll items :: outer) input status log) (b.pushAll items) outer :=
  ⟨h.dictionary, rfl, h.named, by simpa [Body.pushAll] using h.locals, by simpa [Body.pushAll] using h.idents⟩

theorem Fills.nest {d : Dictionary} {name : String} {scope : List String} {m : Machine} {b : Body} {outer : List Body}
    (h : Fills d name scope m b outer) {ident : String} (fit : IsName ident) (input : List Char) (status : String)
    (log : List Event) :
    Fills d name (ident :: scope) (m.reading (⟨.loop, ident, [], []⟩ :: b :: outer) input status log)
      ⟨.loop, ident, [], []⟩ (b :: outer) :=
  ⟨h.dictionary, rfl, fit.1, by simpa using h.locals, by simpa using h.idents⟩

/-- words that a text may use when it defines a name without recursion -/
def Dictionary.Uses (d : Dictionary) (name : String) (scope : List String) (word : String) : Prop :=
  d.Knows scope word ∧ word ≠ ":" ∧ word ≠ name

/-- the text is captured up to where a loop ends, or to its own end, and the line succeeds from there -/
def CapturesUpTo (answer : Answer) (d : Dictionary) (name : String) (m₁ : Machine) (scope : List String) (s : List Char)
    (m : Machine) (b : Body) (outer : List Body) : Prop :=
  ∃ items close input status log,
    Captures (d.Uses name) scope s items close ∧ close.length ≤ s.length ∧ Avoids name close ∧ BeforeEnd close input ∧
      ((Token.next close).1 = [] ∨ (Token.next close).1 = "NEXT".toList) ∧
      evalRest answer (m.reading (b.pushAll items :: outer) input status log) = .ok () m₁

/-- items captured first, and the text behind them -/
theorem CapturesUpTo.cons {d : Dictionary} {name : String} {m m₁ : Machine} {scope : List String} {s after : List Char}
    {b : Body} {outer : List Body} (first : List Item) {input : List Char} {status : String} {log : List Event}
    (hfirst : ∀ items close, Captures (d.Uses name) scope after items close →
      Captures (d.Uses name) scope s (first ++ items) close)
    (hlen : after.length ≤ s.length)
    (h : CapturesUpTo answer d name m₁ scope after (m.reading (b.pushAll first :: outer) input status log)
      (b.pushAll first) outer) : CapturesUpTo answer d name m₁ scope s m b outer := by
  obtain ⟨items, close, input', status', log', hcaptures, hclose, havoids, hbefore, hstop, hrest⟩ := h
  have hpush : (b.pushAll first).pushAll items = b.pushAll (first ++ items) := by simp [Body.pushAll]
  rw [hpush] at hrest
  exact ⟨first ++ items, close, input', status', log', hfirst items close hcaptures, hclose.trans hlen, havoids,
    hbefore, hstop, hrest⟩

/-- a body that waits for its name takes the next word for it -/
theorem evalWord_name_ok {m m' : Machine} (b : Body) (outer : List Body) (frames : m.compilation = ⟨b :: outer⟩)
    (waiting : b.ident = "") {word : String} (hword : word ≠ "") (h : evalWord answer word m = .ok () m') :
    IsName word ∧ ∃ status log, m' = m.reading ({ b with ident := word } :: outer) m.input status log := by
  have hactive := Machine.isCompiling_of_frames frames
  have hnamed {b' : Body} {rest : List Body} (frames' : m.compilation = ⟨b' :: rest⟩) (named : b'.ident ≠ "") :
      False := by
    cases frames.symm.trans frames'
    exact named waiting
  rcases evalWord_capturing hword hactive h with
    ⟨_, _, status, log, hcap, rfl⟩ | ⟨b', rest, _, _, hends, -⟩ | ⟨b', hcloses⟩
  · cases hcap with
    | name b' rest frames' _ fit =>
      cases frames.symm.trans frames'
      exact ⟨fit, status, log, rfl⟩
    | comment _ _ frames' named => exact (hnamed frames' named).elim
    | literal _ _ frames' named => exact (hnamed frames' named).elim
    | loop _ _ frames' named => exact (hnamed frames' named).elim
    | nest _ _ _ frames' named => exact (hnamed frames' named).elim
    | word _ _ frames' named => exact (hnamed frames' named).elim
  · exact (hnamed hends.frames hends.named).elim
  · exact (hnamed hcloses.frames hcloses.named).elim

/-- texts shorter than n are captured wherever the line succeeds -/
def CapturesShorter (answer : Answer) (d : Dictionary) (name : String) (m₁ : Machine) (n : Nat) : Prop :=
  ∀ ⦃s : List Char⦄, s.length < n → Avoids name s →
    ∀ ⦃scope : List String⦄ ⦃m : Machine⦄ ⦃b : Body⦄ ⦃outer : List Body⦄,
      Fills d name scope m b outer → BeforeEnd s m.input → evalRest answer m = .ok () m₁ →
      CapturesUpTo answer d name m₁ scope s m b outer

/-- a loop: its name, the text inside it up to its end, and the text behind it -/
theorem CapturesShorter.loop (hanswer : ∀ r, Evolving (answer r)) {d : Dictionary} {name : String} {m m₁ : Machine}
    {n : Nat}
    (hshorter : CapturesShorter answer d name m₁ n) {scope : List String} {s after input : List Char} {b : Body}
    {outer : List Body} {status : String} {log : List Event} (hlen : s.length < n + 1)
    (read : Token.next s = ("FOR".toList, after)) (havoids : Avoids name after) (hfills : Fills d name scope m b outer)
    (hbefore : BeforeEnd after input)
    (hok : evalRest answer (m.reading (Body.empty .loop :: b :: outer) input status log) = .ok () m₁) :
    CapturesUpTo answer d name m₁ scope s m b outer := by
  have hlenAfter : after.length < s.length := by
    have hshort := Token.next_length s (by rw [read]; exact (by decide : "FOR".toList ≠ []))
    rwa [read] at hshort
  -- the end of the definition cannot stand where the name or the end of a loop is due
  have hopen {b' : Body} {rest : List Body} {close input' : List Char} {status' : String} {log' : List Event}
      (hloop : b'.kind = .loop) (hclose : (Token.next close).1 = []) (hbefore' : BeforeEnd close input')
      (hok' : evalRest answer (m.reading (b' :: rest) input' status' log') = .ok () m₁) : False := by
    obtain ⟨m', hend, -⟩ := evalRest_ok hanswer (m := m.reading (b' :: rest) input' status' log')
      (hbefore'.next_end hclose) (by decide) hok'
    cases hloop.symm.trans (evalWord_end_ok b' rest rfl hend).1
  have hident : (Token.next after).1 ≠ [] := fun hnil => hopen rfl hnil hbefore hok
  obtain ⟨ident, hidenteq⟩ : ∃ ident : String, (Token.next after).1 = ident.toList :=
    ⟨String.ofList (Token.next after).1, by simp⟩
  obtain ⟨input', hread', hbefore'⟩ := hbefore.next_word hident
  obtain ⟨m', hname, hok'⟩ := evalRest_ok hanswer
    (m := m.reading (Body.empty .loop :: b :: outer) input status log) hread' hident hok
  have hne : ident ≠ "" := by
    rintro rfl
    exact hident hidenteq
  rw [hidenteq, String.ofList_toList] at hname
  obtain ⟨fit, st₁, log₁, rfl⟩ := evalWord_name_ok (Body.empty .loop) (b :: outer) rfl rfl hne hname
  have hreadIdent : Token.next after = (ident.toList, (Token.next after).2) := by rw [← hidenteq]
  have hlenStart := Token.next_length after hident
  have havoidsStart := (havoids.next hreadIdent hne (Token.afterText_plain (.inl fit.2.2) _)).2
  -- the text inside
  obtain ⟨body, close, input₂, st₂, log₂, hinner, hlenClose, havoidsClose, hbeforeClose, hstop, hok₂⟩ :=
    hshorter (by omega) havoidsStart (hfills.nest fit input' st₁ log₁) hbefore' hok'
  have hnext : (Token.next close).1 = "NEXT".toList := hstop.resolve_left fun hnil => hopen rfl hnil hbeforeClose hok₂
  obtain ⟨input₃, hread₃, hbefore₃⟩ := hbeforeClose.next_word (by rw [hnext]; decide)
  obtain ⟨m₃, hclose, hok₃⟩ := evalRest_ok hanswer hread₃ (by rw [hnext]; decide) hok₂
  rw [hnext, String.ofList_toList] at hclose
  obtain ⟨-, hnested⟩ := evalWord_next_ok ⟨.loop, ident, body, []⟩ (b :: outer) rfl hclose
  obtain ⟨st₃, log₃, rfl⟩ := hnested b outer rfl
  have hreadNext : Token.next close = ("NEXT".toList, (Token.next close).2) := by rw [← hnext]
  have hlenRest := Token.next_length close (by rw [hnext]; decide)
  have havoidsRest := (havoidsClose.next hreadNext (by decide) (Token.afterText_plain (.inr (.inr (.inl rfl))) _)).2
  -- the text behind
  refine CapturesUpTo.cons [.block ⟨.loop, ident, body, []⟩]
    (fun items close' htail => .loop ident read hreadIdent fit hinner hreadNext htail) (by omega)
    (hshorter (by omega) havoidsRest (hfills.push [.block ⟨.loop, ident, body, []⟩] input₃ st₃ log₃) hbefore₃ ?_)
  exact hok₃

/-- a comment or a text: what it takes from the line up to its delimiter, and the text behind it -/
theorem CapturesShorter.taking {d : Dictionary} {name : String} {m m₁ : Machine} {n : Nat}
    (hshorter : CapturesShorter answer d name m₁ n) {scope : List String} {s rest input input' taken : List Char}
    {b : Body} {outer : List Body} {status : String} {log : List Event} {word : String} {delimiter : Char}
    (hlen : s.length < n + 1) (hread : Token.next s = (word.toList, rest)) (hword : word ≠ "")
    (hafter : ∀ after, Token.takeUntil delimiter rest = some (taken, after) →
      Token.afterText word.toList rest = some after)
    (havoids : Avoids name s) (hfills : Fills d name scope m b outer) (hbefore : BeforeEnd rest input)
    (hdelimiter : delimiter ∉ [' ', ';']) (htaken : Token.takeUntil delimiter input = some (taken, input'))
    (first : List Item)
    (hfirst : ∀ after, Token.takeUntil delimiter rest = some (taken, after) → ∀ items close,
      Captures (d.Uses name) scope after items close → Captures (d.Uses name) scope s (first ++ items) close)
    (hok : evalRest answer (m.reading (b.pushAll first :: outer) input' status log) = .ok () m₁) :
    CapturesUpTo answer d name m₁ scope s m b outer := by
  obtain ⟨after, htext, hbefore'⟩ := hbefore.takeUntil hdelimiter htaken
  have havoids' := (havoids.next hread hword (hafter after htext)).2
  have hshort : after.length ≤ rest.length := (Token.takeUntil_length htext).le
  have hrest : rest.length < s.length := by
    have hnext := Token.next_length s (by rw [hread]; simpa using hword)
    rwa [hread] at hnext
  exact CapturesUpTo.cons first (hfirst after htext) (by omega)
    (hshorter (by omega) havoids' (hfills.push first input' status log) hbefore' hok)

/-- text in front of the end of a definition is captured wherever the line succeeds -/
theorem capturesShorter (hanswer : ∀ r, Evolving (answer r)) (d : Dictionary) (name : String) (m₁ : Machine) (n : Nat) :
    CapturesShorter answer d name m₁ n := by
  induction n with
  | zero => exact fun s hlen => absurd hlen (by omega)
  | succ n ih =>
    intro s hlen havoids scope m b outer hfills hbefore hok
    by_cases hstop : (Token.next s).1 = [] ∨ (Token.next s).1 = "NEXT".toList
    · refine ⟨[], s, m.input, m.status, m.log, .done scope s, le_rfl, havoids, hbefore, hstop, ?_⟩
      rwa [Body.pushAll_nil, Machine.reading, ← hfills.frames]
    obtain ⟨hne, hnext⟩ := not_or.1 hstop
    obtain ⟨word, hwordeq⟩ : ∃ word : String, (Token.next s).1 = word.toList :=
      ⟨String.ofList (Token.next s).1, by simp⟩
    have hread : Token.next s = (word.toList, (Token.next s).2) := by rw [← hwordeq]
    have hword : word ≠ "" := by
      rintro rfl
      exact hne hwordeq
    have hlenRest := Token.next_length s hne
    obtain ⟨input, hread', hbefore'⟩ := hbefore.next_word hne
    obtain ⟨m', hres, hok'⟩ := evalRest_ok hanswer hread' hne hok
    rw [hwordeq, String.ofList_toList] at hres
    have hactive : { m with input }.isCompiling = true := by
      simp [Machine.isCompiling, Compilation.isActive, hfills.frames]
    have hplain (hplain : CompileWord.ofName? word = none ∨ word = "FOR" ∨ word = "NEXT" ∨ word = ";") :=
      havoids.next hread hword (Token.afterText_plain hplain _)
    rcases evalWord_capturing hword hactive hres with
      ⟨frames, input', status, log, hcap, rfl⟩ | ⟨_, _, _, _, hends, -⟩ | ⟨_, hcloses⟩
    · cases hcap with
      | name b' rest frames' waiting =>
        cases hfills.frames.symm.trans frames'
        exact absurd waiting hfills.named
      | comment b' rest frames' _ opens taken _ text =>
        cases hfills.frames.symm.trans frames'
        subst opens
        exact ih.taking hlen hread hword (fun after htext => by simp [Token.afterText, htext]) havoids hfills hbefore'
          (by decide) text [] (fun _ htext items close htail => .comment hread htext htail)
          (by rwa [Body.pushAll_nil])
      | literal b' rest frames' _ opens taken _ text =>
        cases hfills.frames.symm.trans frames'
        subst opens
        have hpush : b.pushAll [.word stringWord, .word (String.ofList taken)] =
            (b.push (.word stringWord)).push (.word (String.ofList taken)) := by simp [Body.pushAll, Body.push]
        exact ih.taking hlen hread hword (fun after htext => by simp [Token.afterText, stringWord, htext]) havoids
          hfills hbefore' (by decide) text [.word stringWord, .word (String.ofList taken)]
          (fun _ htext items close htail => .literal hread htext htail) (by rwa [hpush])
      | loop b' rest frames' _ opens =>
        cases hfills.frames.symm.trans frames'
        subst opens
        exact ih.loop hanswer hlen hread (hplain (.inr (.inl rfl))).2 hfills hbefore' hok'
      | nest _ _ _ _ _ _ closes => exact absurd (closes ▸ hwordeq) hnext
      | word b' rest frames' _ plain known =>
        cases hfills.frames.symm.trans frames'
        obtain ⟨⟨hcolon, -, hother⟩, havoids₂⟩ := hplain (.inl plain)
        have hknown : d.Knows scope word := by
          rcases (Machine.knows_iff (m := { m with input }) hfills.frames hfills.locals word).1 known with
            hnumber | ⟨hname, hin⟩
          · exact .inl hnumber
          · refine .inr ⟨hname, ?_⟩
            rcases hin with hin | hin
            · rw [hfills.idents] at hin
              exact .inl ((List.mem_append.1 hin).resolve_right fun h => hother (by simpa using h))
            · exact .inr (hfills.dictionary ▸ hin)
        exact CapturesUpTo.cons [.word word]
          (fun items close htail => .word word hread hword plain ⟨hknown, hcolon, hother⟩ htail) (by omega)
          (ih (by omega) havoids₂ (hfills.push _ input status log) hbefore' hok')
    · exact absurd hends.word (hplain (.inr (.inr (.inr hends.word)))).1.2.1
    · exact absurd (hcloses.word ▸ hwordeq) hnext

/-- the line that defines a name by a text -/
def definitionLine (name : String) (s : List Char) : List Char :=
  ":".toList ++ ' ' :: (name.toList ++ ' ' :: (s ++ [' ', ';']))

/-- **What a definition captures.** If the line that defines a name by a text succeeds, the text stands for items, and
the line installs them. -/
theorem definition_ok (hanswer : ∀ r, Evolving (answer r)) {m m₁ : Machine} (hm : m.dictionary.Built natives)
    (hidle : m.isCompiling = false) {name : String} (hname : Token.IsWord name.toList) {s : List Char}
    (havoids : Avoids name s) (h : evalLine answer (definitionLine name s) m = .ok () m₁) :
    IsName name ∧ ∃ items rest status log,
      Captures (m.dictionary.Uses name) [] s items rest ∧ (Token.next rest).1 = [] ∧
      m₁ = { m with dictionary := m.dictionary.install ⟨.word, name, items, []⟩, status, log } := by
  have hread : Token.next (definitionLine name s) = (":".toList, name.toList ++ ' ' :: (s ++ [' ', ';'])) :=
    Token.next_word (by decide : Token.IsWord ":".toList) (Token.endsWord_space _)
  have hreadName : Token.next (name.toList ++ ' ' :: (s ++ [' ', ';'])) = (name.toList, s ++ [' ', ';']) :=
    Token.next_word hname (Token.endsWord_space _)
  have hne : name ≠ "" := by
    rintro rfl
    exact hname.1 rfl
  obtain ⟨st₀, log₀, hopen⟩ := Leads.opens (m := { m with input := definitionLine name s }) hanswer hread hidle
    (by decide) (Token.literal_eq_name_iff.2 (by decide)) ((colon_core.append _).lookup hm m.stack) (.inl ⟨rfl, rfl⟩)
  obtain ⟨m₂, hline, hm₁⟩ := evalLine_ok hanswer h
  rw [hopen.rest] at hline
  -- the name
  obtain ⟨m', hnamed, hline₁⟩ := evalRest_ok hanswer (by exact hreadName) hname.1 hline
  rw [String.ofList_toList] at hnamed
  obtain ⟨fit, st₁, log₁, rfl⟩ := evalWord_name_ok (Body.empty .word) [] rfl rfl hne hnamed
  -- the text
  have hfills : Fills m.dictionary name [] (m.reading [⟨.word, name, [], []⟩] (s ++ [' ', ';']) st₁ log₁)
      ⟨.word, name, [], []⟩ [] := ⟨rfl, rfl, hne, by simp, rfl⟩
  obtain ⟨items, close, input, st₂, log₂, hcaptures, -, -, hbefore, hstop, hline₂⟩ :=
    capturesShorter hanswer m.dictionary name m₂ (s.length + 1) (Nat.lt_succ_self _) havoids hfills (.inl rfl) hline₁
  have hclose : (Token.next close).1 = [] := by
    refine hstop.resolve_right fun hnext => ?_
    obtain ⟨input', hread', -⟩ := hbefore.next_word (by rw [hnext]; decide)
    obtain ⟨m', hloop, -⟩ := evalRest_ok hanswer hread' (by rw [hnext]; decide) hline₂
    rw [hnext, String.ofList_toList] at hloop
    cases (evalWord_next_ok _ [] rfl hloop).1
  -- the end
  obtain ⟨m', hend, hline₃⟩ := evalRest_ok hanswer (hbefore.next_end hclose) (by decide) hline₂
  obtain ⟨-, st₃, log₃, rfl⟩ := evalWord_end_ok _ [] rfl hend
  rw [evalRest_end rfl] at hline₃
  refine ⟨fit, items, close, st₃, log₃, hcaptures, hclose, ?_⟩
  rw [hm₁, ← (EStateM.Result.ok.inj hline₃).2, Machine.reading]
  simp only [← Machine.compilation_eq_of_idle hidle]
  rfl

end Capturing

end ReversePolish
