/-
What is captured while a body is under construction.

`Captured` gives the open bodies and the rest of the line after one word that is captured, and `Captures` the items that
a stretch of text stands for, with its loops nested. Results:
- `evalWord_captured`, `evalWord_capturing`: a word succeeds inside a compilation exactly if it is captured, ends the
  definition or closes the outermost loop;
- `Captures.leads`: a stretch of text that stands for items adds them to the innermost body;
- `eval_definition`: a line that defines a word installs the items that it captures.
-/
import ReversePolish.Proofs.Machine.Line

namespace ReversePolish

variable {answer : Answer}

/-! ## Words and what they leave in the report -/

theorem Machine.foldl_record (events : List Event) (m : Machine) :
    events.foldl Machine.record m = { m with log := events.reverse ++ m.log } := by
  induction events generalizing m with
  | nil => rfl
  | cons e events ih =>
    rw [List.foldl_cons, ih]
    simp [Machine.record]

theorem Machine.settle_ok (m : Machine) (word : String) :
    ∃ log, m.settle word none = { m with status := statusLine word m.input none, log } :=
  Machine.traced_eq { m with status := statusLine word m.input none } (.done (statusLine word m.input none))

theorem Machine.settle_none (m : Machine) (word : String) :
    ∃ status log, m.settle word none = { m with status, log } := by
  obtain ⟨log, hlog⟩ := m.settle_ok word
  exact ⟨_, log, hlog⟩

/-- a fault gives up the open bodies, and a parse error the rest of the line -/
theorem Machine.settle_some (m : Machine) (word : String) (fault : Fault) :
    ∃ status log, m.settle word (some fault) =
      { m with compilation := {}, status, log, input := if fault.kind = .parse then [] else m.input } := by
  obtain ⟨log, hlog⟩ := Machine.traced_eq { m with compilation := {}, status := statusLine word m.input (some fault) }
    (.done (statusLine word m.input (some fault)))
  refine ⟨statusLine word m.input (some fault), log, ?_⟩
  unfold Machine.settle
  by_cases hparse : fault.kind = .parse
  · simp only [hparse, Option.any_some, beq_self_eq_true, if_true]
    exact congrArg (fun m' : Machine => { m' with input := [] }) hlog
  · have hkind : (some fault).any (·.kind == .parse) = false := by simpa using hparse
    rw [hkind, if_neg hparse]
    exact hlog

theorem evalWord_compiling (answer : Answer) {word : String} {m : Machine} (hword : word ≠ "")
    (hactive : m.isCompiling = true) :
    ∃ log, evalWord answer word m = settled word (compileWord answer word { m with log }) := by
  obtain ⟨log, hlog⟩ := m.traced_eq (.word word (String.ofList m.input))
  refine ⟨log, ?_⟩
  have hactive' : { m with log }.isCompiling = true := hactive
  rw [evalWord_eq hword, hlog, if_pos hactive']

theorem evalWord_idle (answer : Answer) {word : String} {m : Machine} (hword : word ≠ "")
    (hidle : m.isCompiling = false) :
    ∃ log, evalWord answer word m = settled word (runWord answer word { m with log }) := by
  obtain ⟨log, hlog⟩ := m.traced_eq (.word word (String.ofList m.input))
  refine ⟨log, ?_⟩
  have hidle' : ¬ { m with log }.isCompiling = true := by
    rw [Bool.not_eq_true]
    exact hidle
  rw [evalWord_eq hword, hlog, if_neg hidle']

/-- the machine further on in the line, with other open bodies -/
def Machine.reading (m : Machine) (frames : List Body) (input : List Char) (status : String) (log : List Event) :
    Machine :=
  { m with compilation := ⟨frames⟩, input, status, log }

/-! ## One captured word -/

/-- the word is captured, and leaves these open bodies and this rest of the line -/
inductive Captured (m : Machine) (word : String) : List Body → List Char → Prop
  | name (b : Body) (rest : List Body) (frames : m.compilation = ⟨b :: rest⟩) (waiting : b.ident = "")
    (fit : IsName word) : Captured m word ({ b with ident := word } :: rest) m.input
  | comment (b : Body) (rest : List Body) (frames : m.compilation = ⟨b :: rest⟩) (named : b.ident ≠ "")
    (opens : word = "(") (taken after : List Char) (text : Token.takeUntil ')' m.input = some (taken, after)) :
    Captured m word (b :: rest) after
  | literal (b : Body) (rest : List Body) (frames : m.compilation = ⟨b :: rest⟩) (named : b.ident ≠ "")
    (opens : word = stringWord) (taken after : List Char)
    (text : Token.takeUntil '"' m.input = some (taken, after)) :
    Captured m word ((b.push (.word stringWord)).push (.word (String.ofList taken)) :: rest) after
  | loop (b : Body) (rest : List Body) (frames : m.compilation = ⟨b :: rest⟩) (named : b.ident ≠ "")
    (opens : word = "FOR") : Captured m word (Body.empty .loop :: b :: rest) m.input
  | nest (b outer : Body) (rest : List Body) (frames : m.compilation = ⟨b :: outer :: rest⟩) (named : b.ident ≠ "")
    (kind : b.kind = .loop) (closes : word = "NEXT") : Captured m word (outer.push (.block b) :: rest) m.input
  | word (b : Body) (rest : List Body) (frames : m.compilation = ⟨b :: rest⟩) (named : b.ident ≠ "")
    (plain : CompileWord.ofName? word = none) (known : m.Knows word) :
    Captured m word (b.push (.word word) :: rest) m.input

theorem compileWord_captured (answer : Answer) {m : Machine} {word : String} {frames : List Body} {input : List Char}
    (h : Captured m word frames input) :
    compileWord answer word m = .ok () { m with compilation := ⟨frames⟩, input } := by
  cases h with
  | name b rest hframes waiting fit =>
    rw [compileWord_eq hframes (.name waiting fit)]
    change EStateM.Result.ok () (m.mapCompilation (·.setIdent word)) = _
    rw [Machine.mapCompilation, hframes]
    rfl
  | comment b rest hframes named opens taken after text =>
    rw [compileWord_eq hframes (.comment named opens), CompileStep.run, takeUntil_bind text, ← hframes]
    rfl
  | literal b rest hframes named opens taken after text =>
    rw [compileWord_eq hframes (.literal named opens), CompileStep.run, takeUntil_bind text]
    change EStateM.Result.ok () (Machine.mapCompilation _ _) = _
    rw [Machine.mapCompilation, hframes]
    rfl
  | loop b rest hframes named opens =>
    rw [compileWord_eq hframes (.start named opens)]
    change EStateM.Result.ok () (m.mapCompilation (·.start .loop)) = _
    rw [Machine.mapCompilation, hframes]
    rfl
  | nest b outer rest hframes named kind closes =>
    rw [compileWord_eq hframes (.nest outer rest rfl named closes kind)]
    rfl
  | word b rest hframes named plain known =>
    rw [compileWord_eq hframes (.capture named plain known)]
    change EStateM.Result.ok () (m.mapCompilation (·.append (.word word))) = _
    rw [Machine.mapCompilation, hframes]
    rfl

theorem Captured.isCompiling {m : Machine} {word : String} {frames : List Body} {input : List Char}
    (h : Captured m word frames input) : m.isCompiling = true := by
  cases h <;> simp [Machine.isCompiling, Compilation.isActive, *]

/-- being captured does not depend on the log -/
theorem Captured.log {m : Machine} {word : String} {frames : List Body} {input : List Char}
    (h : Captured m word frames input) (log : List Event) : Captured { m with log } word frames input := by
  cases h with
  | name b rest hframes waiting fit => exact .name b rest hframes waiting fit
  | comment b rest hframes named opens taken after text =>
    exact .comment (m := { m with log }) b rest hframes named opens taken _ text
  | literal b rest hframes named opens taken after text =>
    exact .literal (m := { m with log }) b rest hframes named opens taken _ text
  | loop b rest hframes named opens => exact .loop b rest hframes named opens
  | nest b outer rest hframes named kind closes => exact .nest b outer rest hframes named kind closes
  | word b rest hframes named plain known => exact .word b rest hframes named plain known

theorem evalWord_captured (answer : Answer) {m : Machine} {word : String} {frames : List Body} {input : List Char}
    (hword : word ≠ "") (h : Captured m word frames input) :
    ∃ status log, evalWord answer word m = .ok () (m.reading frames input status log) := by
  obtain ⟨log, hlog⟩ := evalWord_compiling answer hword h.isCompiling
  rw [hlog, compileWord_captured answer (h.log log)]
  obtain ⟨status, log', hsettle⟩ := Machine.settle_none { m with log, compilation := ⟨frames⟩, input } word
  exact ⟨status, log', congrArg (EStateM.Result.ok ()) hsettle⟩

/-- a captured word of a body -/
theorem withInput_captured (answer : Answer) (m : Machine) {word : String} (text : List Char) {input : List Char}
    {frames : List Body} (hword : word ≠ "") (h : Captured { m with input := text } word frames input) :
    ∃ status log, Machine.withInput text (evalWord answer word) m = .ok () (m.reading frames m.input status log) := by
  obtain ⟨status, log, hres⟩ := evalWord_captured answer hword h
  refine ⟨status, log, ?_⟩
  unfold Machine.withInput
  rw [hres]
  rfl

/-! ## All words inside a compilation -/

/-- the word ends the definition under construction -/
structure Ends (m : Machine) (word : String) (b : Body) (rest : List Body) : Prop where
  word : word = ";"
  frames : m.compilation = ⟨b :: rest⟩
  named : b.ident ≠ ""
  kind : b.kind = .word

/-- the word closes the outermost loop, which then runs -/
structure Closes (m : Machine) (word : String) (b : Body) : Prop where
  word : word = "NEXT"
  frames : m.compilation = ⟨[b]⟩
  named : b.ident ≠ ""
  kind : b.kind = .loop

/-- a word that takes text succeeds if the text ends in the line -/
theorem take_ok {delimiter : Char} {missing : Fault} {f : String → Machine → Machine} {m m' : Machine}
    (h : (CompileStep.take delimiter missing f).run answer m = .ok () m') :
    ∃ taken after, Token.takeUntil delimiter m.input = some (taken, after) := by
  cases htaken : Token.takeUntil delimiter m.input with
  | some p => exact ⟨p.1, p.2, rfl⟩
  | none =>
    rw [CompileStep.run, takeUntil_bind_missing htaken] at h
    cases h

/-- and fails if it does not, with nothing taken -/
theorem take_error {delimiter : Char} {missing fault : Fault} {f : String → Machine → Machine} {m m' : Machine}
    (h : (CompileStep.take delimiter missing f).run answer m = .error fault m') : m' = m := by
  cases htaken : Token.takeUntil delimiter m.input with
  | some p =>
    obtain ⟨taken, after⟩ := p
    rw [CompileStep.run, takeUntil_bind htaken] at h
    cases h
  | none =>
    rw [CompileStep.run, takeUntil_bind_missing htaken] at h
    cases h
    rfl

theorem compileWord_ok {word : String} {m m' : Machine} (hword : word ≠ "") (hactive : m.isCompiling = true)
    (h : compileWord answer word m = .ok () m') :
    (∃ frames input, Captured m word frames input ∧ m' = { m with compilation := ⟨frames⟩, input }) ∨
      (∃ b rest, Ends m word b rest ∧
        m' = { m.record (.defined b.ident b.text) with compilation := ⟨rest⟩, dictionary := m.dictionary.install b }) ∨
      ∃ b, Closes m word b := by
  obtain ⟨b, rest, hframes⟩ := Machine.frames_of_compiling hactive
  obtain ⟨step, hstep⟩ := exists_compiles hword m b rest
  have hrun := h
  rw [compileWord_eq hframes hstep] at hrun
  have hcaptured {frames : List Body} {input : List Char} (hcap : Captured m word frames input) :
      ∃ frames input, Captured m word frames input ∧ m' = { m with compilation := ⟨frames⟩, input } :=
    ⟨frames, input, hcap, (EStateM.Result.ok.inj (h.symm.trans (compileWord_captured answer hcap))).2⟩
  cases hstep with
  | badName | unmatchedEnd | unmatchedNext | unread | unknown => cases hrun
  | name waiting fit => exact .inl (hcaptured (.name b rest hframes waiting fit))
  | comment named opens =>
    obtain ⟨taken, after, htaken⟩ := take_ok hrun
    exact .inl (hcaptured (.comment b rest hframes named opens taken after htaken))
  | literal named opens =>
    obtain ⟨taken, after, htaken⟩ := take_ok hrun
    exact .inl (hcaptured (.literal b rest hframes named opens taken after htaken))
  | start named opens => exact .inl (hcaptured (.loop b rest hframes named opens))
  | define named ends kind =>
    exact .inr (.inl ⟨b, rest, ⟨ends, hframes, named, kind⟩, (EStateM.Result.ok.inj hrun).2.symm⟩)
  | nest outer others around named closes kind =>
    subst around
    exact .inl (hcaptured (.nest b outer others hframes named kind closes))
  | close outermost named closes kind =>
    subst outermost
    exact .inr (.inr ⟨b, closes, hframes, named, kind⟩)
  | capture named plain known => exact .inl (hcaptured (.word b rest hframes named plain known))

/-- a word that succeeds inside a compilation is captured, ends the definition, or closes the outermost loop -/
theorem evalWord_capturing {word : String} {m m' : Machine} (hword : word ≠ "") (hactive : m.isCompiling = true)
    (h : evalWord answer word m = .ok () m') :
    (∃ frames input status log, Captured m word frames input ∧ m' = m.reading frames input status log) ∨
      (∃ b rest status log, Ends m word b rest ∧
        m' = { m.reading rest m.input status log with dictionary := m.dictionary.install b }) ∨
      ∃ b, Closes m word b := by
  obtain ⟨log, hlog⟩ := evalWord_compiling answer hword hactive
  rw [hlog] at h
  cases hr : compileWord answer word { m with log } with
  | error f m₁ => rw [hr] at h; cases h
  | ok _ m₁ =>
    rw [hr] at h
    have hm' : m₁.settle word none = m' := (EStateM.Result.ok.inj h).2
    obtain ⟨status, log', hsettle⟩ := Machine.settle_none m₁ word
    rcases compileWord_ok (m := { m with log }) hword hactive hr with
      ⟨frames, input, hcap, rfl⟩ | ⟨b, rest, hends, rfl⟩ | ⟨b, hcloses⟩
    · refine .inl ⟨frames, input, status, log', hcap.log m.log, ?_⟩
      rw [← hm', hsettle]
      rfl
    · refine .inr (.inl ⟨b, rest, status, log', ⟨hends.word, hends.frames, hends.named, hends.kind⟩, ?_⟩)
      rw [← hm', hsettle]
      rfl
    · exact .inr (.inr ⟨b, hcloses.word, hcloses.frames, hcloses.named, hcloses.kind⟩)

/-- the end of a definition installs it -/
theorem evalWord_ends (answer : Answer) {m : Machine} {word : String} {b : Body} {rest : List Body}
    (h : Ends m word b rest) :
    ∃ status log, evalWord answer word m =
      .ok () { m.reading rest m.input status log with dictionary := m.dictionary.install b } := by
  obtain ⟨rfl, hframes, hnamed, hkind⟩ := h
  have hactive := Machine.isCompiling_of_frames hframes
  obtain ⟨log, hlog⟩ := evalWord_compiling answer (by decide : ";" ≠ "") hactive
  have hframes' : { m with log }.compilation = ⟨b :: rest⟩ := hframes
  have hend : compileWord answer ";" { m with log } = .ok () { { m with log }.record (.defined b.ident b.text) with
      compilation := ⟨rest⟩, dictionary := m.dictionary.install b } :=
    compileWord_eq hframes' (.define hnamed rfl hkind) answer
  rw [hlog, hend]
  obtain ⟨status, log', hsettle⟩ := Machine.settle_none { { m with log }.record (.defined b.ident b.text) with
      compilation := ⟨rest⟩, dictionary := m.dictionary.install b } ";"
  exact ⟨status, log', congrArg (EStateM.Result.ok ()) hsettle⟩

/-- the end of the outermost loop runs it -/
theorem evalWord_closes (answer : Answer) {m : Machine} {word : String} {b : Body} (h : Closes m word b) :
    ∃ log, Evolves m { m with compilation := {}, log } ∧
      evalWord answer word m = settled word (answer (.body b) { m with compilation := {}, log }) := by
  obtain ⟨rfl, hframes, hnamed, hkind⟩ := h
  obtain ⟨log, hlog⟩ := m.traced_eq (.word "NEXT" (String.ofList m.input))
  have hframes' : { m with log }.compilation = ⟨[b]⟩ := hframes
  have hclose : Edit { m with log } fun m => { m with compilation := {} } :=
    .close b (congrArg Compilation.frames hframes') hkind hnamed
  refine ⟨log, (hlog ▸ Evolves.traced m _ : Evolves m { m with log }).trans (.edit hclose), ?_⟩
  rw [evalWord_eq (by decide), hlog, if_pos (Machine.isCompiling_of_frames hframes'),
    compileWord_eq hframes' (.close rfl hnamed rfl hkind)]
  rfl

/-! ## Stretches of text -/

/-- a word that may be captured where these names are bound -/
def Dictionary.Knows (d : Dictionary) (scope : List String) (word : String) : Prop :=
  (∃ v, Token.literal word.toList = .number v) ∨
    Token.literal word.toList = .name ∧ (word ∈ scope ∨ d.contains word = true)

/-- the names that open bodies give a meaning, if they bind no values -/
theorem Machine.knows_iff {m : Machine} {frames : List Body} (hframes : m.compilation = ⟨frames⟩)
    (hlocals : ∀ b ∈ frames, b.locals = []) (word : String) :
    m.Knows word ↔ m.dictionary.Knows (frames.map Body.ident) word := by
  have hlocal : m.compilation.isLocal word = true ↔ word ∈ frames.map Body.ident := by
    rw [hframes, Compilation.isLocal, List.any_eq_true, List.mem_map]
    refine exists_congr fun b => and_congr_right fun hb => ?_
    simp [Body.binds, hlocals b hb, Keyed.contains]
  unfold Machine.Knows Dictionary.Knows
  rw [hlocal]

/-- `Captures ok scope s items rest`: from s up to rest the text stands for the items. Every plain word is `ok` for the
names bound around it, and a loop binds its variable. -/
inductive Captures (ok : List String → String → Prop) : List String → List Char → List Item → List Char → Prop
  | done (scope : List String) (s : List Char) : Captures ok scope s [] s
  | word {scope : List String} {s : List Char} (word : String) {after rest : List Char} {items : List Item}
    (read : Token.next s = (word.toList, after)) (nonempty : word ≠ "") (plain : CompileWord.ofName? word = none)
    (allowed : ok scope word) (tail : Captures ok scope after items rest) :
    Captures ok scope s (.word word :: items) rest
  | comment {scope : List String} {s after taken after' rest : List Char} {items : List Item}
    (read : Token.next s = ("(".toList, after)) (text : Token.takeUntil ')' after = some (taken, after'))
    (tail : Captures ok scope after' items rest) : Captures ok scope s items rest
  | literal {scope : List String} {s after taken after' rest : List Char} {items : List Item}
    (read : Token.next s = (stringWord.toList, after)) (text : Token.takeUntil '"' after = some (taken, after'))
    (tail : Captures ok scope after' items rest) :
    Captures ok scope s (.word stringWord :: .word (String.ofList taken) :: items) rest
  | loop {scope : List String} {s : List Char} (ident : String) {after start close after' rest : List Char}
    {body items : List Item} (read : Token.next s = ("FOR".toList, after))
    (name : Token.next after = (ident.toList, start)) (fit : IsName ident)
    (inner : Captures ok (ident :: scope) start body close) (next : Token.next close = ("NEXT".toList, after'))
    (tail : Captures ok scope after' items rest) :
    Captures ok scope s (.block ⟨.loop, ident, body, []⟩ :: items) rest

/-- a blank in front of the text does not matter -/
theorem Captures.blank {ok : List String → String → Prop} {scope : List String} {s rest : List Char}
    {items : List Item} (h : Captures ok scope s items rest) (hne : s ≠ rest) {c : Char} (hc : Text.isBlank c = true) :
    Captures ok scope (c :: s) items rest := by
  have hnext := Token.next_blank hc s
  cases h with
  | done => exact absurd rfl hne
  | word word read nonempty plain allowed tail => exact .word word (hnext.trans read) nonempty plain allowed tail
  | comment read text tail => exact .comment (hnext.trans read) text tail
  | literal read text tail => exact .literal (hnext.trans read) text tail
  | loop ident read name fit inner next tail => exact .loop ident (hnext.trans read) name fit inner next tail

/-- a comment in front of the text does not matter -/
theorem Captures.commented {ok : List String → String → Prop} {scope : List String} {s rest : List Char}
    {items : List Item} (h : Captures ok scope s items rest) (hne : s ≠ rest) {text : List Char} (htext : ')' ∉ text) :
    Captures ok scope (['(', ' '] ++ text ++ [')', ' '] ++ s) items rest := by
  have hread : Token.next (['(', ' '] ++ text ++ [')', ' '] ++ s) = ("(".toList, text ++ ')' :: ' ' :: s) := by
    have hparen : Token.IsWord "(".toList := by decide
    simpa using Token.next_word hparen (Token.endsWord_space (text ++ ')' :: ' ' :: s))
  exact .comment hread (Token.takeUntil_eq_some_iff.2 ⟨rfl, htext⟩) (h.blank hne (by decide))

/-- a captured word that is read from the line -/
theorem Leads.captured (hanswer : ∀ r, Evolving (answer r)) {m : Machine} {word : String} {after input : List Char}
    {frames : List Body} (read : Token.next m.input = (word.toList, after)) (hword : word ≠ "")
    (h : Captured { m with input := after } word frames input) :
    ∃ status log, Leads answer m (m.reading frames input status log) := by
  obtain ⟨status, log, hres⟩ := evalWord_captured answer hword h
  refine ⟨status, log, Leads.word hanswer read (by simpa using hword) ?_⟩
  rw [String.ofList_toList, hres]
  rfl

/-- the innermost body with more items -/
def Body.pushAll (b : Body) (items : List Item) : Body := { b with items := b.items ++ items }

theorem Body.pushAll_nil (b : Body) : b.pushAll [] = b := by
  cases b
  simp [Body.pushAll]

theorem Body.push_pushAll (b : Body) (item : Item) (items : List Item) :
    (b.push item).pushAll items = b.pushAll (item :: items) := by
  simp [Body.pushAll, Body.push]

/-- **Captured text.** A stretch of text that stands for items adds them to the innermost open body. -/
theorem Captures.leads (hanswer : ∀ r, Evolving (answer r)) {ok : List String → String → Prop} {scope : List String}
    {s rest : List Char} {items : List Item} (h : Captures ok scope s items rest) (m : Machine)
    (hok : ∀ scope word, ok scope word → m.dictionary.Knows scope word) (b : Body) (outer : List Body)
    (hframes : m.compilation = ⟨b :: outer⟩) (hinput : m.input = s) (hnamed : b.ident ≠ "")
    (hlocals : ∀ f ∈ b :: outer, f.locals = []) (hscope : scope = (b :: outer).map Body.ident) :
    ∃ status log, Leads answer m (m.reading (b.pushAll items :: outer) rest status log) := by
  induction h generalizing m b outer with
  | done scope s =>
    refine ⟨m.status, m.log, ?_⟩
    rw [Body.pushAll_nil, ← hinput, Machine.reading, ← hframes]
    exact .refl m
  | @word scope s word after rest items read nonempty plain allowed tail ih =>
    subst hinput
    have hknown : { m with input := after }.Knows word :=
      (Machine.knows_iff (m := { m with input := after }) hframes hlocals word).2 (hscope ▸ hok scope word allowed)
    obtain ⟨status, log, hfirst⟩ := Leads.captured hanswer read nonempty (.word b outer hframes hnamed plain hknown)
    obtain ⟨status', log', hrest⟩ := ih (m.reading (b.push (.word word) :: outer) after status log) hok
      (b.push (.word word)) outer rfl rfl hnamed (by simpa [Body.push] using hlocals)
      (by simpa [Body.push] using hscope)
    rw [Body.push_pushAll] at hrest
    exact ⟨status', log', hfirst.trans hrest⟩
  | @comment scope s after taken after' rest items read text tail ih =>
    subst hinput
    obtain ⟨status, log, hfirst⟩ := Leads.captured hanswer read (by decide : "(" ≠ "")
      (.comment (m := { m with input := after }) b outer hframes hnamed rfl taken after' text)
    obtain ⟨status', log', hrest⟩ :=
      ih (m.reading (b :: outer) after' status log) hok b outer rfl rfl hnamed hlocals hscope
    exact ⟨status', log', hfirst.trans hrest⟩
  | @literal scope s after taken after' rest items read text tail ih =>
    subst hinput
    obtain ⟨status, log, hfirst⟩ := Leads.captured hanswer read (by decide : stringWord ≠ "")
      (.literal (m := { m with input := after }) b outer hframes hnamed rfl taken after' text)
    obtain ⟨status', log', hrest⟩ := ih
      (m.reading ((b.push (.word stringWord)).push (.word (String.ofList taken)) :: outer) after' status log) hok
      ((b.push (.word stringWord)).push (.word (String.ofList taken))) outer rfl rfl hnamed
      (by simpa [Body.push] using hlocals) (by simpa [Body.push] using hscope)
    rw [Body.push_pushAll, Body.push_pushAll] at hrest
    exact ⟨status', log', hfirst.trans hrest⟩
  | @loop scope s ident after start close after' rest body items read name fit inner next tail ihInner ihTail =>
    subst hinput
    -- the loop is opened, named, filled and closed, and the text behind it goes on in the body around it
    obtain ⟨st₁, log₁, hopen⟩ := Leads.captured hanswer read (by decide : "FOR" ≠ "")
      (.loop (m := { m with input := after }) b outer hframes hnamed rfl)
    obtain ⟨st₂, log₂, hname⟩ := Leads.captured (m := m.reading (Body.empty .loop :: b :: outer) after st₁ log₁)
      hanswer name fit.1 (.name (Body.empty .loop) (b :: outer) rfl rfl fit)
    obtain ⟨st₃, log₃, hinner⟩ := ihInner
      (m.reading (⟨.loop, ident, [], []⟩ :: b :: outer) start st₂ log₂) hok ⟨.loop, ident, [], []⟩ (b :: outer) rfl rfl
      fit.1 (by simpa using hlocals) (by simp [hscope])
    obtain ⟨st₄, log₄, hnext⟩ := Leads.captured
      (m := m.reading (Body.pushAll ⟨.loop, ident, [], []⟩ body :: b :: outer) close st₃ log₃) hanswer
      next (by decide : "NEXT" ≠ "") (.nest (Body.pushAll ⟨.loop, ident, [], []⟩ body) b outer rfl fit.1 rfl rfl)
    obtain ⟨st₅, log₅, htail⟩ := ihTail
      (m.reading (b.push (.block ⟨.loop, ident, body, []⟩) :: outer) after' st₄ log₄) hok
      (b.push (.block ⟨.loop, ident, body, []⟩)) outer rfl rfl hnamed (by simpa [Body.push] using hlocals)
      (by simpa [Body.push] using hscope)
    rw [Body.push_pushAll] at htail
    exact ⟨st₅, log₅, hopen.trans (hname.trans (hinner.trans (hnext.trans htail)))⟩

/-! ## Definitions -/

/-- outside a compilation, a word that opens a body opens it -/
theorem evalWord_opens (answer : Answer) {m : Machine} {word : String} {d : Definition} {kind : BodyKind}
    (hidle : m.isCompiling = false) (hword : word ≠ "") (hname : Token.literal word.toList = .name)
    (hlookup : m.dictionary.lookup word m.stack = some d)
    (hopens : d.action = .core .define ∧ kind = .word ∨ d.action = .core .loop ∧ kind = .loop) :
    ∃ status log, evalWord answer word m = .ok () (m.reading [Body.empty kind] m.input status log) := by
  obtain ⟨log, hlog⟩ := evalWord_idle answer hword hidle
  have hrun : d.run answer { m with log } = .ok () { m with log, compilation := ⟨[Body.empty kind]⟩ } := by
    have hstart : { m with log }.mapCompilation (·.start kind) =
        { m with log, compilation := ⟨[Body.empty kind]⟩ } := by
      simp only [Machine.mapCompilation, Machine.compilation_eq_of_idle hidle, Compilation.start]
    rw [← hstart]
    unfold Definition.run
    rcases hopens with ⟨haction, rfl⟩ | ⟨haction, rfl⟩
    · rw [haction]
      rfl
    · rw [haction]
      rfl
  rw [hlog, runWord_lookup hname (by exact hlookup), hrun]
  obtain ⟨status, log', hsettle⟩ := Machine.settle_none { m with log, compilation := ⟨[Body.empty kind]⟩ } word
  exact ⟨status, log', congrArg (EStateM.Result.ok ()) hsettle⟩

theorem Leads.opens (hanswer : ∀ r, Evolving (answer r)) {m : Machine} {word : String} {after : List Char}
    {d : Definition} {kind : BodyKind} (read : Token.next m.input = (word.toList, after))
    (hidle : m.isCompiling = false) (hword : word ≠ "") (hname : Token.literal word.toList = .name)
    (hlookup : m.dictionary.lookup word m.stack = some d)
    (hopens : d.action = .core .define ∧ kind = .word ∨ d.action = .core .loop ∧ kind = .loop) :
    ∃ status log, Leads answer m (m.reading [Body.empty kind] after status log) := by
  obtain ⟨status, log, hres⟩ := evalWord_opens answer (m := { m with input := after }) hidle hword hname
    hlookup hopens
  refine ⟨status, log, Leads.word hanswer read (by simpa using hword) ?_⟩
  rw [String.ofList_toList, hres]
  rfl

/-- a loop that a line opens is captured up to its end -/
theorem Leads.loop (hanswer : ∀ r, Evolving (answer r)) {m : Machine} (hidle : m.isCompiling = false) {d : Definition}
    (hlookup : m.dictionary.lookup "FOR" m.stack = some d) (haction : d.action = .core .loop)
    {ok : List String → String → Prop} (hok : ∀ scope word, ok scope word → m.dictionary.Knows scope word)
    {ident : String} {after start close : List Char} {body : List Item}
    (read : Token.next m.input = ("FOR".toList, after)) (name : Token.next after = (ident.toList, start))
    (fit : IsName ident) (inner : Captures ok [ident] start body close) :
    ∃ status log, Leads answer m (m.reading [⟨.loop, ident, body, []⟩] close status log) := by
  obtain ⟨st₁, log₁, hopen⟩ := Leads.opens hanswer read hidle (by decide) (Token.literal_eq_name_iff.2 (by decide))
    hlookup (.inr ⟨haction, rfl⟩)
  obtain ⟨st₂, log₂, hname⟩ := Leads.captured (m := m.reading [Body.empty .loop] after st₁ log₁) hanswer name fit.1
    (.name (Body.empty .loop) [] rfl rfl fit)
  obtain ⟨st₃, log₃, hfill⟩ := inner.leads hanswer (m.reading [⟨.loop, ident, [], []⟩] start st₂ log₂) hok
    ⟨.loop, ident, [], []⟩ [] rfl rfl fit.1 (by simp) rfl
  exact ⟨st₃, log₃, hopen.trans (hname.trans hfill)⟩

theorem Leads.ends (hanswer : ∀ r, Evolving (answer r)) {m : Machine} {after : List Char} {b : Body} {rest : List Body}
    (read : Token.next m.input = (";".toList, after)) (hframes : m.compilation = ⟨b :: rest⟩) (hnamed : b.ident ≠ "")
    (hkind : b.kind = .word) :
    ∃ status log, Leads answer m { m.reading rest after status log with dictionary := m.dictionary.install b } := by
  obtain ⟨status, log, hres⟩ := evalWord_ends answer (m := { m with input := after })
    ⟨rfl, hframes, hnamed, hkind⟩
  refine ⟨status, log, Leads.word hanswer read (by decide) ?_⟩
  rw [String.ofList_toList, hres]
  rfl

/-- a line that gives a name the items of a stretch of text -/
structure Defines (d : Dictionary) (line : List Char) (name : String) (items : List Item) : Prop where
  layout : ∃ start inner close after, Token.next line = (":".toList, start) ∧ Token.next start = (name.toList, inner) ∧
    Captures d.Knows [name] inner items close ∧ Token.next close = (";".toList, after) ∧ (Token.next after).1 = []
  fit : IsName name

/-- **Definitions.** A line that defines a word installs its items, and changes nothing else but the report. -/
theorem evalLine_definition (hanswer : ∀ r, Evolving (answer r)) {m : Machine} (hidle : m.isCompiling = false)
    {d : Definition} (hcolon : m.dictionary.lookup ":" m.stack = some d) (hdefine : d.action = .core .define)
    {line : List Char} {name : String} {items : List Item} (h : Defines m.dictionary line name items) :
    ∃ status log, evalLine answer line m =
      .ok () { m with dictionary := m.dictionary.install ⟨.word, name, items, []⟩, status, log } := by
  obtain ⟨⟨start, inner, close, after, hread, hname, hcap, hend, htail⟩, hfit⟩ := h
  obtain ⟨st₁, log₁, hopen⟩ := Leads.opens (m := { m with input := line }) hanswer hread hidle (by decide)
    (Token.literal_eq_name_iff.2 (by decide)) hcolon (.inl ⟨hdefine, rfl⟩)
  obtain ⟨st₂, log₂, hnamed⟩ := Leads.captured
    (m := Machine.reading { m with input := line } [Body.empty .word] start st₁ log₁) hanswer hname hfit.1
    (.name (Body.empty .word) [] rfl rfl hfit)
  obtain ⟨st₃, log₃, hfilled⟩ := hcap.leads hanswer
    (Machine.reading { m with input := line } [⟨.word, name, [], []⟩] inner st₂ log₂) (fun _ _ h => h)
    ⟨.word, name, [], []⟩ [] rfl rfl hfit.1 (by simp) rfl
  obtain ⟨st₄, log₄, hended⟩ := Leads.ends
    (m := Machine.reading { m with input := line } [⟨.word, name, items, []⟩] close st₃ log₃) hanswer hend rfl hfit.1
    rfl
  have hline := hopen.trans (hnamed.trans (hfilled.trans hended))
  refine ⟨st₄, log₄, ?_⟩
  rw [evalLine_eq hanswer, hline.rest, evalRest_end (by exact htail)]
  simp only [Machine.reading, ← Machine.compilation_eq_of_idle hidle]
  rfl

end ReversePolish
