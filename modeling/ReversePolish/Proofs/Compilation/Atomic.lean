/-
A definition is made as a whole or not at all.

A host feeds a machine with words and lines. `feedAll` lists every word that is evaluated on the way, those of a line
one by one, with the machine that it meets and what it ends with. Results:
- `withInput_evalRest`: the words of a line, evaluated one by one, end as the line does;
- `evalOne_inside`: a word that meets open bodies is captured and changes no data, fails and gives the open bodies up,
  ends the definition, or closes the outermost loop;
- `Linked.keeps`: so do all words from the one that opens a body on, as long as a body is open;
- `definitions_atomic` puts these together with the order of the open bodies.
-/
import ReversePolish.Proofs.Compilation.Call
import ReversePolish.Proofs.Compilation.Sound

namespace ReversePolish

/-! ## Words and lines that a host feeds -/

/-- what a host feeds a machine with: a word and the rest of its line, or a whole line -/
inductive Feed where
  | word (word rest : String)
  | line (text : String)

/-- a word that was evaluated: the machine that it met, and what it ended with -/
structure Fed where
  machine : Machine
  word : String
  result : EStateM.Result Fault Machine Unit

/-- the words of a line, at most n of them, each with the rest that the one before it left, up to the first one that
fails -/
def lineFeeds : Nat → List Char → Machine → List Fed
  | 0, _, _ => []
  | n + 1, line, m =>
    if (Token.next line).1 = [] then []
    else
      let word := String.ofList (Token.next line).1
      match Machine.evalOne word (String.ofList (Token.next line).2) m with
      | (.ok _ m', left) => ⟨m, word, .ok () m'⟩ :: lineFeeds n left.toList m'
      | (.error fault m', _) => [⟨m, word, .error fault m'⟩]

/-- the words that are evaluated -/
def Feed.words : Feed → Machine → List Fed
  | .word w rest, m => [⟨m, w, (Machine.evalOne w rest m).1⟩]
  | .line text, m => lineFeeds text.toList.length text.toList m

/-- the machine afterwards -/
def Feed.after : Feed → Machine → Machine
  | .word w rest, m => (Machine.evalOne w rest m).1.state
  | .line text, m => (Machine.eval text m).state

/-- the words that are evaluated when a machine is fed with one thing after the other -/
def feedAll : List Feed → Machine → List Fed
  | [], _ => []
  | f :: fs, m => f.words m ++ feedAll fs (f.after m)

/-- what a run of words ends with -/
def outcome (m : Machine) (es : List Fed) : EStateM.Result Fault Machine Unit :=
  (es.getLast?.map Fed.result).getD (.ok () m)

theorem outcome_cons_ok (m₀ m m' : Machine) (word : String) (es : List Fed) :
    outcome m₀ (⟨m, word, .ok () m'⟩ :: es) = outcome m' es := by
  unfold outcome
  cases es with
  | nil => rfl
  | cons e es => simp [List.getLast?_cons]

/-- the words of a line, evaluated one by one, end as the line does -/
theorem withInput_evalRest (n : Nat) (line : List Char) (m : Machine) (h : line.length ≤ n) :
    Machine.withInput line (evalRest (answerUpTo m.allowance)) m = outcome m (lineFeeds n line m) := by
  have hanswer := answerUpTo_evolves m.allowance
  have hend (line : List Char) (m : Machine) (h : (Token.next line).1 = []) :
      Machine.withInput line (evalRest (answerUpTo m.allowance)) m = .ok () m := by
    rw [withInput_eq, evalRest_end (by exact h)]
    rfl
  induction n generalizing line m with
  | zero =>
    obtain rfl : line = [] := List.length_eq_zero_iff.1 (Nat.le_zero.1 h)
    exact hend [] m rfl
  | succ n ih =>
    by_cases hw : (Token.next line).1 = []
    · rw [hend line m hw, lineFeeds, if_pos hw]
      rfl
    · have hshort := Token.next_length line hw
      have hev := evalWord_evolves hanswer (String.ofList (Token.next line).1) { m with input := (Token.next line).2 }
      have hstep : evalRest (answerUpTo m.allowance) { m with input := line } =
          EStateM.bind (evalWord (answerUpTo m.allowance) (String.ofList (Token.next line).1))
            (fun _ => evalRest (answerUpTo m.allowance)) { m with input := (Token.next line).2 } :=
        evalRest_word hanswer (by exact hw)
      rw [lineFeeds, if_neg hw]
      simp only [Machine.evalOne, String.toList_ofList, Machine.withInput, hstep, EStateM.bind]
      revert hev
      cases evalWord (answerUpTo m.allowance) (String.ofList (Token.next line).1)
          { m with input := (Token.next line).2 } with
      | error fault m' => exact fun _ => rfl
      | ok a m' =>
        intro hev
        have hmax : m'.maxCallDepth = m.maxCallDepth := hev.maxCallDepth
        have hlen : m'.input.length ≤ (Token.next line).2.length := hev.input.length_le
        have hrest := ih m'.input { m' with input := m.input } (by omega) (answerUpTo_evolves _)
        have hallow : Machine.allowance { m' with input := m.input } = m.allowance := by
          unfold Machine.allowance
          rw [hmax]
        rw [hallow] at hrest
        simp only [outcome_cons_ok, String.toList_ofList]
        rw [← hrest]
        rfl

/-- the result of a line is that of its last word -/
theorem eval_ok_of_outcome {text : String} {m m' : Machine}
    (h : outcome m (lineFeeds text.toList.length text.toList m) = .ok () m') : Machine.eval text m = .ok () m' := by
  rw [← withInput_evalRest _ _ _ le_rfl] at h
  unfold Machine.withInput at h
  rw [Machine.eval, evalLine_eq (answerUpTo_evolves _)]
  revert h
  cases evalRest (answerUpTo m.allowance) { m with input := text.toList } with
  | ok a m₁ => exact id
  | error f m₁ => exact fun h => by cases h

/-! ## Runs of words -/

/-- words that a machine evaluates one after the other; each meets the machine that the one before it left, if that one
succeeded -/
inductive Linked : Machine → List Fed → Prop
  | nil (m : Machine) : Linked m []
  | cons {m : Machine} (word rest : String) {es : List Fed}
    (tail : ∀ m', (Machine.evalOne word rest m).1 = .ok () m' → Linked m' es) :
    Linked m (⟨m, word, (Machine.evalOne word rest m).1⟩ :: es)

theorem Linked.append {m : Machine} {es es' : List Fed} (h : Linked m es)
    (h' : ∀ m', outcome m es = .ok () m' → Linked m' es') : Linked m (es ++ es') := by
  induction h with
  | nil m => exact h' m rfl
  | @cons m word rest es tail ih =>
    refine .cons word rest fun m₁ hm₁ => ih m₁ hm₁ fun m' hm' => h' m' ?_
    rw [hm₁, outcome_cons_ok]
    exact hm'

theorem linked_lineFeeds (n : Nat) (line : List Char) (m : Machine) : Linked m (lineFeeds n line m) := by
  induction n generalizing line m with
  | zero => exact .nil m
  | succ n ih =>
    rw [lineFeeds]
    split
    · exact .nil m
    · dsimp only
      have hword (es : List Fed) (tail : ∀ m', (Machine.evalOne (String.ofList (Token.next line).1)
          (String.ofList (Token.next line).2) m).1 = .ok () m' → Linked m' es) := Linked.cons _ _ tail
      split
      · rename_i a m' left hr
        rw [hr] at hword
        refine hword _ fun m₁ hm₁ => ?_
        cases hm₁
        exact ih left.toList m'
      · rename_i fault m' left hr
        rw [hr] at hword
        exact hword [] fun m₁ hm₁ => by cases hm₁

theorem linked_feedAll (fs : List Feed) (m : Machine) : Linked m (feedAll fs m) := by
  induction fs generalizing m with
  | nil => exact .nil m
  | cons f fs ih =>
    cases f with
    | word word rest =>
      refine .cons word rest fun m' hm' => ?_
      have hafter : Feed.after (.word word rest) m = m' := by rw [Feed.after, hm']; rfl
      rw [hafter]
      exact ih m'
    | line text =>
      refine (linked_lineFeeds _ _ m).append fun m' hm' => ?_
      have hafter : Feed.after (.line text) m = m' := by rw [Feed.after, eval_ok_of_outcome hm']; rfl
      rw [hafter]
      exact ih m'

/-! ## Open bodies in order -/

/-- of the open bodies, innermost first, all but the outermost are loops, and all but the innermost have their names -/
structure InOrder (frames : List Body) : Prop where
  loops : ∀ b ∈ frames.dropLast, b.kind = .loop
  named : ∀ b ∈ frames.tail, b.ident ≠ ""

theorem AllNamed.idents {d : Dictionary} {frames : List Body} (h : AllNamed d frames) :
    ∀ b ∈ frames, b.ident ≠ "" := by
  induction h with
  | nil => simp
  | cons kind ident items fit bottom body rest ih =>
    intro b hb
    rcases List.mem_cons.1 hb with rfl | hb
    · exact fit.1
    · exact ih b hb

/-- a body on top of others is a loop -/
theorem loops_cons {b : Body} {outer : List Body} (bottom : b.kind = .word → outer = [])
    (h : ∀ f ∈ outer.dropLast, f.kind = .loop) : ∀ f ∈ (b :: outer).dropLast, f.kind = .loop := by
  cases outer with
  | nil => simp
  | cons f rest =>
    intro f' hf'
    rcases List.mem_cons.1 (by simpa using hf') with rfl | hf'
    · cases hkind : f'.kind with
      | loop => rfl
      | word => cases bottom hkind
    · exact h f' (by simpa using hf')

theorem AllNamed.loops {d : Dictionary} {frames : List Body} (h : AllNamed d frames) :
    ∀ b ∈ frames.dropLast, b.kind = .loop := by
  induction h with
  | nil => simp
  | cons kind ident items fit bottom body rest ih => exact loops_cons bottom ih

theorem OpenBodies.inOrder {d : Dictionary} {frames : List Body} (h : OpenBodies d frames) : InOrder frames := by
  cases h with
  | named h => exact ⟨h.loops, fun b hb => h.idents b (List.mem_of_mem_tail hb)⟩
  | waiting kind bottom h => exact ⟨loops_cons bottom h.loops, h.idents⟩

/-- the kind of the outermost open body -/
def Machine.bottom? (m : Machine) : Option BodyKind := m.compilation.frames.getLast?.map Body.kind

/-- a captured word stays inside the outermost body -/
theorem Captured.bottom {m : Machine} {word : String} {frames : List Body} {input : List Char}
    (h : Captured m word frames input) : frames.getLast?.map Body.kind = m.bottom? ∧ frames ≠ [] := by
  have houter (b b' : Body) (rest : List Body) (hkind : b'.kind = b.kind) :
      (b' :: rest).getLast?.map Body.kind = (b :: rest).getLast?.map Body.kind := by
    cases rest with
    | nil => simp [hkind]
    | cons c rest => simp [List.getLast?_cons_cons]
  unfold Machine.bottom?
  cases h with
  | name b rest hframes => exact ⟨by rw [hframes]; exact houter b _ rest rfl, by simp⟩
  | comment b rest hframes => exact ⟨by rw [hframes], by simp⟩
  | literal b rest hframes => exact ⟨by rw [hframes]; exact houter b _ rest rfl, by simp⟩
  | loop b rest hframes => exact ⟨by rw [hframes, List.getLast?_cons_cons], by simp⟩
  | nest b outer rest hframes =>
    refine ⟨?_, by simp⟩
    rw [hframes, List.getLast?_cons_cons]
    exact houter outer _ rest rfl
  | word b rest hframes => exact ⟨by rw [hframes]; exact houter b _ rest rfl, by simp⟩

/-! ## One word inside a compilation -/

/-- the same stack, dictionary and scopes -/
structure SameData (m m' : Machine) : Prop where
  stack : m'.stack = m.stack
  dictionary : m'.dictionary = m.dictionary
  scopes : m'.scopes = m.scopes

theorem SameData.trans {m m' m'' : Machine} (h : SameData m m') (h' : SameData m' m'') : SameData m m'' :=
  ⟨h'.stack.trans h.stack, h'.dictionary.trans h.dictionary, h'.scopes.trans h.scopes⟩

section Answers

variable {answer : Answer}

/-- a word that fails inside a compilation has changed nothing, unless it ran the outermost loop -/
theorem compileWord_error {word : String} {m m' : Machine} {f : Fault} (hword : word ≠ "")
    (hactive : m.isCompiling = true) (h : compileWord answer word m = .error f m') :
    m' = m ∨ ∃ b, Closes m word b := by
  obtain ⟨b, rest, hframes⟩ := Machine.frames_of_compiling hactive
  obtain ⟨step, hstep⟩ := exists_compiles hword m b rest
  rw [compileWord_eq hframes hstep] at h
  cases step with
  | fail fault =>
    cases h
    exact .inl rfl
  | edit g => cases h
  | take delimiter missing g => exact .inl (take_error h)
  | loop b' =>
    cases hstep with
    | close outermost named closes kind => exact .inr ⟨b, closes, outermost ▸ hframes, named, kind⟩

/-- a word fails, and no body is open afterwards -/
theorem evalWord_error_idle {word : String} {m m' : Machine} {f : Fault} (h : evalWord answer word m = .error f m') :
    m'.isCompiling = false := by
  by_cases hword : word = ""
  · subst hword
    cases h
  · rw [evalWord_eq hword] at h
    generalize (if (m.traced (.word word (String.ofList m.input))).isCompiling then compileWord answer word
      else runWord answer word) (m.traced (.word word (String.ofList m.input))) = r at h
    cases r with
    | ok a m₁ => cases h
    | error f' m₁ =>
      obtain ⟨status, log, hsettle⟩ := m₁.settle_some word f'
      rw [settled_error, hsettle] at h
      cases h
      rfl

theorem evalWords_error_idle {n : Nat} {m m' : Machine} {f : Fault} (h : evalWords answer n m = .error f m') :
    m'.isCompiling = false := by
  induction n generalizing m with
  | zero => cases h
  | succ n ih =>
    by_cases hw : (Token.next m.input).1 = []
    · rw [evalWords_succ_end hw] at h
      cases h
    · rw [evalWords_succ_word hw] at h
      change EStateM.bind _ _ _ = _ at h
      unfold EStateM.bind at h
      cases hr : evalWord answer (String.ofList (Token.next m.input).1) { m with input := (Token.next m.input).2 } with
      | ok a m₁ =>
        rw [hr] at h
        exact ih h
      | error f' m₁ =>
        rw [hr] at h
        cases h
        exact evalWord_error_idle hr

theorem evalLine_error_idle {line : List Char} {m m' : Machine} {f : Fault} (h : evalLine answer line m = .error f m') :
    m'.isCompiling = false := by
  rw [evalLine_onLine] at h
  cases hr : evalWords answer line.length { m with input := line } with
  | ok a m₁ =>
    rw [hr] at h
    cases h
  | error f' m₁ =>
    have hidle := evalWords_error_idle hr
    rw [hr] at h
    cases h
    exact hidle

end Answers

/-- what a word ends with that meets open bodies -/
inductive Inside (m : Machine) (word : String) : EStateM.Result Fault Machine Unit → Prop
  | stays {m' : Machine} (active : m'.isCompiling = true) (bottom : m'.bottom? = m.bottom?) (same : SameData m m') :
    Inside m word (.ok () m')
  | fails {f : Fault} {m' : Machine} (idle : m'.isCompiling = false) (same : SameData m m') :
    Inside m word (.error f m')
  | defines {m' : Machine} (b : Body) (h : Ends m word b []) (idle : m'.isCompiling = false)
    (same : SameData { m with dictionary := m.dictionary.install b } m') : Inside m word (.ok () m')
  | closes {r : EStateM.Result Fault Machine Unit} (b : Body) (h : Closes m word b) : Inside m word r

theorem evalOne_inside {m : Machine} (hactive : m.isCompiling = true) (horder : InOrder m.compilation.frames)
    (word rest : String) : Inside m word (Machine.evalOne word rest m).1 := by
  by_cases hword : word = ""
  · subst hword
    exact .stays hactive rfl ⟨rfl, rfl, rfl⟩
  rw [evalOne_eq, withInput_eq]
  generalize hr : evalWord (answerUpTo m.allowance) word { m with input := rest.toList } = r
  cases r with
  | ok a m' =>
    rcases evalWord_capturing (m := { m with input := rest.toList }) hword hactive hr with
      ⟨frames, input, status, log, hcap, rfl⟩ | ⟨b, outer, status, log, hends, rfl⟩ | ⟨b, hcloses⟩
    · obtain ⟨hbottom, hne⟩ := hcap.bottom
      refine .stays ?_ hbottom ⟨rfl, rfl, rfl⟩
      simpa [Machine.isCompiling, Compilation.isActive, Machine.reading] using hne
    · -- a definition stands outside all other bodies
      obtain rfl : outer = [] := by
        have hframes : m.compilation.frames = b :: outer := congrArg Compilation.frames hends.frames
        cases outer with
        | nil => rfl
        | cons f fs =>
          have hloop := horder.loops b (by simp [hframes])
          cases hends.kind.symm.trans hloop
      exact .defines b ⟨hends.word, hends.frames, hends.named, hends.kind⟩ rfl ⟨rfl, rfl, rfl⟩
    · exact .closes b ⟨hcloses.word, hcloses.frames, hcloses.named, hcloses.kind⟩
  | error f m' =>
    have hidle := evalWord_error_idle hr
    obtain ⟨log, hlog⟩ := evalWord_compiling (answerUpTo m.allowance) (m := { m with input := rest.toList }) hword
      hactive
    rw [hlog] at hr
    cases hcompile : compileWord (answerUpTo m.allowance) word { m with input := rest.toList, log } with
    | ok a m₁ =>
      rw [hcompile] at hr
      cases hr
    | error f' m₁ =>
      rcases compileWord_error (m := { m with input := rest.toList, log }) hword hactive hcompile with
        rfl | ⟨b, hcloses⟩
      · obtain ⟨status, log', hsettle⟩ := Machine.settle_some { m with input := rest.toList, log } word f'
        rw [hcompile, settled_error, hsettle] at hr
        cases hr
        exact .fails hidle ⟨rfl, rfl, rfl⟩
      · exact .closes b ⟨hcloses.word, hcloses.frames, hcloses.named, hcloses.kind⟩

/-! ## Words as long as a body is open -/

/-- the word that opens a body of this kind outside every other -/
def BodyKind.opener : BodyKind → String
  | .word => ":"
  | .loop => "FOR"

/-- What a word does to the data of the machine m, on which a body of this kind was opened: nothing as long as a body is
open, and nothing if it fails. Where it succeeds and no body is open any more, it ends the definition, and touches the
definitions of its name only. -/
structure Fed.Keeps (kind : BodyKind) (m : Machine) (e : Fed) : Prop where
  stays : e.result.state.isCompiling = true → SameData m e.result.state
  fails : ∀ f, e.result.error? = some f → e.result.state.isCompiling = false ∧ SameData m e.result.state
  defines : e.result.error? = none → e.result.state.isCompiling = false →
    kind = .word ∧ e.word = ";" ∧ e.result.state.stack = m.stack ∧ e.result.state.scopes = m.scopes ∧
      ∃ b, e.machine.compilation.frames = [b] ∧ e.result.state.dictionary = m.dictionary.install b ∧
        ∀ other, other ≠ b.ident → e.result.state.dictionary.definitions other = m.dictionary.definitions other

/-- the machine has the data of m, and the outermost of its open bodies is of this kind -/
structure Opened (kind : BodyKind) (m m' : Machine) : Prop where
  reachable : Reachable m'
  active : m'.isCompiling = true
  bottom : m'.bottom? = some kind
  same : SameData m m'

/-- only a loop is closed and run -/
theorem Opened.closes {kind : BodyKind} {m m' : Machine} (h : Opened kind m m') {word : String} {b : Body}
    (hcloses : Closes m' word b) : kind = .loop := by
  have hbottom := h.bottom
  simpa [Machine.bottom?, hcloses.frames, hcloses.kind, eq_comm] using hbottom

theorem Inside.keeps {kind : BodyKind} {m m' : Machine} (hm : m.dictionary.Proper) (h : Opened kind m m')
    {word : String} {r : EStateM.Result Fault Machine Unit} (hr : Inside m' word r)
    (hloop : kind = .loop → ∀ b, ¬ Closes m' word b) : Fed.Keeps kind m ⟨m', word, r⟩ := by
  cases hr with
  | stays active bottom same =>
    exact ⟨fun _ => h.same.trans same, fun f hf => (by cases hf), fun _ hidle => (by simp [active] at hidle)⟩
  | fails idle same =>
    exact ⟨fun hactive => (by simp [idle] at hactive), fun _ _ => ⟨idle, h.same.trans same⟩, fun hok => (by cases hok)⟩
  | defines b hends idle same =>
    refine ⟨fun hactive => (by simp [idle] at hactive), fun f hf => (by cases hf), fun _ _ => ?_⟩
    have hkind : kind = .word := by
      have hbottom := h.bottom
      simpa [Machine.bottom?, hends.frames, hends.kind, eq_comm] using hbottom
    have hdictionary := same.dictionary
    dsimp only at hdictionary
    rw [h.same.dictionary] at hdictionary
    refine ⟨hkind, hends.word, same.stack.trans h.same.stack, same.scopes.trans h.same.scopes, b,
      congrArg Compilation.frames hends.frames, hdictionary, fun other hother => ?_⟩
    rw [EStateM.Result.state_ok, hdictionary, Dictionary.definitions_install hm hends.named, if_neg (Ne.symm hother)]
  | closes b hcloses => exact absurd hcloses (hloop (h.closes hcloses) b)

/-- a word that leaves a body open leaves the data and the kind of the outermost body -/
theorem Opened.next {kind : BodyKind} {m m' : Machine} (h : Opened kind m m') {word rest : String}
    (hactive : (Machine.evalOne word rest m').1.state.isCompiling = true)
    (hloop : kind = .loop → ∀ b, ¬ Closes m' word b) :
    ∃ m'', (Machine.evalOne word rest m').1 = .ok () m'' ∧ Opened kind m m'' := by
  have hinside := evalOne_inside h.active h.reachable.wellCompiled.frames.inOrder word rest
  have hreach := h.reachable.word word rest
  generalize (Machine.evalOne word rest m').1 = r at hactive hinside hreach ⊢
  cases hinside with
  | @stays m'' _ bottom same => exact ⟨m'', rfl, hreach, hactive, bottom.trans h.bottom, h.same.trans same⟩
  | fails idle _ => simp [idle] at hactive
  | defines b _ idle _ => simp [idle] at hactive
  | closes b hcloses => exact absurd hcloses (hloop (h.closes hcloses) b)

/-- all words keep the data, from a machine with open bodies on and as long as bodies are open -/
theorem Linked.keeps {kind : BodyKind} {m m' : Machine} (hm : m.dictionary.Proper) {before after : List Fed} {e : Fed}
    (h : Linked m' (before ++ e :: after)) (hopened : Opened kind m m')
    (hactive : ∀ e' ∈ before, e'.result.state.isCompiling = true)
    (hloop : kind = .loop → ∀ e' ∈ before ++ [e], ∀ b, ¬ Closes e'.machine e'.word b) : e.Keeps kind m := by
  induction before generalizing m' with
  | nil =>
    cases h with
    | cons word rest tail =>
      have hinside := evalOne_inside hopened.active hopened.reachable.wellCompiled.frames.inOrder word rest
      exact hinside.keeps hm hopened fun hkind => hloop hkind _ (List.mem_singleton_self _)
  | cons e₁ before ih =>
    rw [List.cons_append] at h
    cases h with
    | cons word rest tail =>
      obtain ⟨m'', hr, hopened'⟩ := hopened.next (hactive _ List.mem_cons_self)
        fun hkind => hloop hkind _ List.mem_cons_self
      exact ih (tail m'' hr) hopened' (fun e' he' => hactive e' (List.mem_cons_of_mem _ he'))
        fun hkind e' he' => hloop hkind e' (List.mem_cons_of_mem _ he')

/-- the word that opens a body opens it, or finds no bounds for a loop and changes no data -/
theorem evalOne_opener {m : Machine} (hm : Reachable m) (hidle : m.isCompiling = false) (kind : BodyKind)
    (rest : String) :
    (∃ m', (Machine.evalOne kind.opener rest m).1 = .ok () m' ∧ Opened kind m m') ∨
      kind = .loop ∧
        ∃ f m', (Machine.evalOne kind.opener rest m).1 = .error f m' ∧ m'.isCompiling = false ∧ SameData m m' := by
  have hname : Token.literal kind.opener.toList = .name := Token.literal_eq_name_iff.2 (by cases kind <;> decide)
  have hword : kind.opener ≠ "" := by cases kind <;> decide
  have hreach := hm.word kind.opener rest
  rw [evalOne_eq] at hreach ⊢
  -- a definition is found, which opens a body of the kind, or none is
  have hlookup : (∃ d, m.dictionary.lookup kind.opener m.stack = some d ∧
      (d.action = .core .define ∧ kind = .word ∨ d.action = .core .loop ∧ kind = .loop)) ∨
      kind = .loop ∧ m.dictionary.lookup kind.opener m.stack = none := by
    cases kind with
    | word => exact .inl ⟨_, (colon_core.append _).lookup hm.built m.stack, .inl ⟨rfl, rfl⟩⟩
    | loop =>
      obtain ⟨hsome, hnone⟩ := hm.built.lookup_for (hm.body?_eq_none rfl) m.stack
      cases hbounds : m.stack.hasBounds with
      | true =>
        obtain ⟨d, hd, haction⟩ := hsome hbounds
        exact .inl ⟨d, hd, .inr ⟨haction, rfl⟩⟩
      | false => exact .inr ⟨rfl, hnone hbounds⟩
  rcases hlookup with ⟨d, hd, hopens⟩ | ⟨hloop, hnone⟩
  · obtain ⟨status, log, hr⟩ := evalWord_opens (answerUpTo m.allowance) (m := { m with input := rest.toList }) hidle
      hword hname hd hopens
    unfold Machine.withInput at hreach ⊢
    simp only [hr] at hreach ⊢
    exact .inl ⟨_, rfl, hreach, rfl, rfl, ⟨rfl, rfl, rfl⟩⟩
  · obtain ⟨log, hlog⟩ := evalWord_idle (answerUpTo m.allowance) (m := { m with input := rest.toList }) hword hidle
    rw [runWord_unmatched hname (by exact hnone)] at hlog
    obtain ⟨status, log', hsettle⟩ := Machine.settle_some { m with input := rest.toList, log } kind.opener
      (if m.dictionary.contains kind.opener then .noMatch kind.opener else .notFound kind.opener)
    have hr : evalWord (answerUpTo m.allowance) kind.opener { m with input := rest.toList } = .error _ _ :=
      hlog.trans (congrArg (EStateM.Result.error _) hsettle)
    unfold Machine.withInput
    simp only [hr]
    exact .inr ⟨hloop, _, _, rfl, rfl, ⟨rfl, rfl, rfl⟩⟩

/-- **Definitions are atomic.** On a reachable machine the open bodies are loops inside at most one definition, of which
only the innermost may wait for its name, and no body is open after a word or a line that fails. From an idle machine,
let the first word that is fed open a definition or a loop, and take any word after it before which a body was open all
along; for a loop, only up to the end of the outermost one. Then that word keeps the data. -/
theorem definitions_atomic {m : Machine} (hm : Reachable m) :
    InOrder m.compilation.frames ∧
    (∀ word rest f, (Machine.evalOne word rest m).1.error? = some f →
      (Machine.evalOne word rest m).1.state.isCompiling = false) ∧
    (∀ line f, (Machine.eval line m).error? = some f → (Machine.eval line m).state.isCompiling = false) ∧
    (m.isCompiling = false → ∀ (kind : BodyKind) (fs : List Feed) (before after : List Fed) (e : Fed),
      feedAll fs m = before ++ e :: after → (before ++ [e]).head?.map Fed.word = some kind.opener →
      (∀ e' ∈ before, e'.result.state.isCompiling = true) →
      (kind = .loop → ∀ e' ∈ before ++ [e], ∀ b, ¬ Closes e'.machine e'.word b) → e.Keeps kind m) := by
  refine ⟨hm.wellCompiled.frames.inOrder, fun word rest f hf => ?_, fun line f hf => ?_, ?_⟩
  · rw [evalOne_eq, withInput_eq, onLine, EStateM.Result.error?_mapState] at hf
    obtain ⟨m₁, hr⟩ := EStateM.Result.error?_eq_some hf
    have hidle := evalWord_error_idle hr
    rw [evalOne_eq, withInput_eq, hr]
    exact hidle
  · obtain ⟨m₁, hr⟩ := EStateM.Result.error?_eq_some hf
    rw [hr]
    exact evalLine_error_idle hr
  · intro hidle kind fs before after e hfed hfirst hactive hloop
    have hlinked := linked_feedAll fs m
    rw [hfed] at hlinked
    cases before with
    | nil =>
      cases hlinked with
      | cons word rest tail =>
        obtain rfl : word = kind.opener := by simpa using hfirst
        rcases evalOne_opener hm hidle kind rest with ⟨m', hr, hopened⟩ | ⟨-, f, m', hr, hidle', hsame⟩
        · rw [hr]
          exact ⟨fun _ => hopened.same, fun f hf => (by cases hf), fun _ h => (by simp [hopened.active] at h)⟩
        · rw [hr]
          exact ⟨fun h => (by simp [hidle'] at h), fun _ _ => ⟨hidle', hsame⟩, fun h => (by cases h)⟩
    | cons e₁ before =>
      rw [List.cons_append] at hlinked
      cases hlinked with
      | cons word rest tail =>
        obtain rfl : word = kind.opener := by simpa using hfirst
        have hactive₁ := hactive _ List.mem_cons_self
        rcases evalOne_opener hm hidle kind rest with ⟨m', hr, hopened⟩ | ⟨-, f, m', hr, hidle', hsame⟩
        · exact (tail m' hr).keeps hm.built.proper hopened (fun e' he' => hactive e' (List.mem_cons_of_mem _ he'))
            fun hkind e' he' => hloop hkind e' (List.mem_cons_of_mem _ he')
        · simp [hr, hidle'] at hactive₁

theorem feedAll_word {w rest : String} {m m' : Machine} (h : (Machine.evalOne w rest m).1 = .ok () m')
    (fs : List Feed) : feedAll (.word w rest :: fs) m = ⟨m, w, .ok () m'⟩ :: feedAll fs m' := by
  simp only [feedAll, Feed.words, Feed.after, h, EStateM.Result.state_ok, List.cons_append, List.nil_append]

theorem evalOne_captured {m : Machine} {word : String} {frames : List Body} (hword : word ≠ "")
    (h : Captured { m with input := [] } word frames []) :
    ∃ status log, (Machine.evalOne word "" m).1 = .ok () (m.reading frames m.input status log) := by
  rw [evalOne_eq]
  exact withInput_captured _ m [] hword h

theorem lineFeeds_nil (n : Nat) (m : Machine) : lineFeeds n [] m = [] := by
  cases n <;> rfl

/-- a captured word of a line, and the words after it -/
theorem lineFeeds_captured {n : Nat} {line after input : List Char} {m : Machine} {word : String} {frames : List Body}
    (read : Token.next line = (word.toList, after)) (hword : word ≠ "")
    (h : Captured { m with input := after } word frames input) :
    ∃ status log, lineFeeds (n + 1) line m =
      ⟨m, word, .ok () (m.reading frames m.input status log)⟩ ::
        lineFeeds n input (m.reading frames m.input status log) := by
  obtain ⟨status, log, hres⟩ := evalWord_captured (answerUpTo m.allowance) hword h
  refine ⟨status, log, ?_⟩
  rw [lineFeeds, read, if_neg (by simpa using hword)]
  simp only [Machine.evalOne, String.toList_ofList, String.ofList_toList, hres]
  rfl

/-- feeds that open a definition, and a loop inside it -/
def openingFeeds : List Feed := [.word ":" "", .line "G FOR I", .word "I" ""]

/-- after them, both bodies are open -/
theorem feedAll_opening {m : Machine} (hm : m.dictionary.Built natives) (hidle : m.isCompiling = false)
    (fs : List Feed) :
    ∃ before status log, feedAll (openingFeeds ++ fs) m = before ++ feedAll fs
        (m.reading [⟨.loop, "I", [.word "I"], []⟩, ⟨.word, "G", [], []⟩] m.input status log) ∧
      before.map Fed.word = [":", "G", "FOR", "I", "I"] ∧ ∀ e ∈ before, e.result.state.isCompiling = true := by
  have hfit (name : String) (h : name = "G" ∨ name = "I") : IsName name := by
    rcases h with rfl | rfl <;> exact ⟨by decide, by decide, by decide⟩
  obtain ⟨st₁, log₁, hopen⟩ := evalWord_opens (answerUpTo m.allowance) (m := { m with input := [] }) hidle (by decide)
    (Token.literal_eq_name_iff.2 (by decide)) ((colon_core.append _).lookup hm m.stack) (.inl ⟨rfl, rfl⟩)
  have hcolon : (Machine.evalOne ":" "" m).1 = .ok () (m.reading [Body.empty .word] m.input st₁ log₁) :=
    (evalOne_eq _ _ m).trans (congrArg (onLine m.input) hopen)
  -- the line names the definition, and opens and names the loop
  obtain ⟨st₂, log₂, hname⟩ := lineFeeds_captured (n := 6) (m := m.reading [Body.empty .word] m.input st₁ log₁)
    (by decide : Token.next "G FOR I".toList = ("G".toList, "FOR I".toList)) (by decide)
    (.name (Body.empty .word) [] rfl rfl (hfit "G" (.inl rfl)))
  obtain ⟨st₃, log₃, hloop⟩ := lineFeeds_captured (n := 5) (m := m.reading [⟨.word, "G", [], []⟩] m.input st₂ log₂)
    (by decide : Token.next "FOR I".toList = ("FOR".toList, "I".toList)) (by decide)
    (.loop ⟨.word, "G", [], []⟩ [] rfl (by decide) rfl)
  obtain ⟨st₄, log₄, hvar⟩ := lineFeeds_captured (n := 4)
    (m := m.reading [Body.empty .loop, ⟨.word, "G", [], []⟩] m.input st₃ log₃)
    (by decide : Token.next "I".toList = ("I".toList, [])) (by decide)
    (.name (Body.empty .loop) [⟨.word, "G", [], []⟩] rfl rfl (hfit "I" (.inr rfl)))
  have hline := hname.trans (congrArg _ (hloop.trans (congrArg _ hvar)))
  have heval : Machine.eval "G FOR I" (m.reading [Body.empty .word] m.input st₁ log₁) =
      .ok () (m.reading [⟨.loop, "I", [], []⟩, ⟨.word, "G", [], []⟩] m.input st₄ log₄) :=
    eval_ok_of_outcome (congrArg (outcome _) hline)
  obtain ⟨st₅, log₅, hitem⟩ := evalOne_captured
    (m := m.reading [⟨.loop, "I", [], []⟩, ⟨.word, "G", [], []⟩] m.input st₄ log₄) (by decide : "I" ≠ "")
    (.word ⟨.loop, "I", [], []⟩ [⟨.word, "G", [], []⟩] rfl (by decide) (by decide)
      (.inr ⟨Token.literal_eq_name_iff.2 (by decide), .inl rfl⟩))
  refine ⟨⟨m, ":", .ok () (m.reading [Body.empty .word] m.input st₁ log₁)⟩ ::
    (lineFeeds 7 "G FOR I".toList (m.reading [Body.empty .word] m.input st₁ log₁) ++
      [⟨m.reading [⟨.loop, "I", [], []⟩, ⟨.word, "G", [], []⟩] m.input st₄ log₄, "I",
        .ok () (m.reading [⟨.loop, "I", [.word "I"], []⟩, ⟨.word, "G", [], []⟩] m.input st₅ log₅)⟩]),
    st₅, log₅, ?_, ?_, ?_⟩
  · change feedAll (.word ":" "" :: .line "G FOR I" :: .word "I" "" :: fs) m = _
    rw [feedAll_word hcolon, feedAll, Feed.after, heval, EStateM.Result.state_ok, feedAll_word hitem]
    simp only [List.cons_append, List.append_assoc, List.nil_append]
    rfl
  · rw [hline]
    rfl
  · rw [hline]
    simp only [lineFeeds_nil, List.cons_append, List.nil_append, List.forall_mem_cons]
    exact ⟨rfl, rfl, rfl, rfl, rfl, by simp⟩

/-- the loop is ended, and then the definition, which is installed with it; or the definition is ended inside the loop,
which is refused and leaves nothing behind -/
theorem definitions_atomic_nested :
    ∃ m, Reachable m ∧ m.isCompiling = false ∧
      (∃ before e, feedAll (openingFeeds ++ [.word "NEXT" "", .word ";" ""]) m = before ++ [e] ∧
        before.map Fed.word = [":", "G", "FOR", "I", "I", "NEXT"] ∧ e.result.state.isCompiling = false ∧
        e.result.state.stack = m.stack ∧
        e.result.state.dictionary = m.dictionary.install ⟨.word, "G", [.block ⟨.loop, "I", [.word "I"], []⟩], []⟩) ∧
      ∃ before e f, feedAll (openingFeeds ++ [.word ";" ""]) m = before ++ [e] ∧
        before.map Fed.word = [":", "G", "FOR", "I", "I"] ∧ e.result.error? = some f ∧
        e.result.state.isCompiling = false ∧ SameData m e.result.state := by
  obtain ⟨m, hm, hidle, -⟩ := reachable_fresh
  refine ⟨m, hm, hidle, ?_, ?_⟩
  · obtain ⟨before, status, log, hfed, hwords, hactive⟩ :=
      feedAll_opening hm.built hidle [.word "NEXT" "", .word ";" ""]
    obtain ⟨st₁, log₁, hnext⟩ := evalOne_captured
      (m := m.reading [⟨.loop, "I", [.word "I"], []⟩, ⟨.word, "G", [], []⟩] m.input status log)
      (by decide : "NEXT" ≠ "") (.nest ⟨.loop, "I", [.word "I"], []⟩ ⟨.word, "G", [], []⟩ [] rfl (by decide) rfl rfl)
    obtain ⟨st₂, log₂, hend⟩ := evalWord_ends (answerUpTo m.allowance)
      (m := m.reading [⟨.word, "G", [.block ⟨.loop, "I", [.word "I"], []⟩], []⟩] [] st₁ log₁) ⟨rfl, rfl, by decide, rfl⟩
    have hlast := (evalOne_eq ";" ""
      (m.reading [⟨.word, "G", [.block ⟨.loop, "I", [.word "I"], []⟩], []⟩] m.input st₁ log₁)).trans
      (congrArg (onLine m.input) hend)
    have hends := (feedAll_word hnext [.word ";" ""]).trans (congrArg _ (feedAll_word hlast []))
    rw [hends, List.append_cons before] at hfed
    have hkeeps := (definitions_atomic hm).2.2.2 hidle .word _ _ [] _ hfed
      (by rw [← List.head?_map, List.map_append, List.map_append, hwords]; rfl)
      (List.forall_mem_append.2 ⟨hactive, List.forall_mem_singleton.2 rfl⟩) (fun h => by cases h)
    obtain ⟨-, -, hstack, -, b, hframes, hdictionary, -⟩ := hkeeps.defines rfl rfl
    cases hframes
    exact ⟨_, _, hfed, by simp [hwords], rfl, hstack, hdictionary⟩
  · obtain ⟨before, status, log, hfed, hwords, hactive⟩ := feedAll_opening hm.built hidle [.word ";" ""]
    obtain ⟨f, hf⟩ : ∃ f, (Machine.evalOne ";" ""
        (m.reading [⟨.loop, "I", [.word "I"], []⟩, ⟨.word, "G", [], []⟩] m.input status log)).1.error? = some f := by
      rw [evalOne_eq, withInput_eq, onLine, EStateM.Result.error?_mapState]
      cases hr : evalWord (answerUpTo m.allowance) ";"
          (m.reading [⟨.loop, "I", [.word "I"], []⟩, ⟨.word, "G", [], []⟩] [] status log) with
      | ok _ m' => cases (evalWord_end_ok ⟨.loop, "I", [.word "I"], []⟩ [⟨.word, "G", [], []⟩] rfl hr).1
      | error f m' => exact ⟨f, congrArg EStateM.Result.error? hr⟩
    have hkeeps := (definitions_atomic hm).2.2.2 hidle .word _ before [] _ hfed
      (by rw [← List.head?_map, List.map_append, hwords]; rfl) hactive (fun h => by cases h)
    exact ⟨before, _, f, hfed, hwords, hf, hkeeps.fails f hf⟩

end ReversePolish
