/-
Two runs of the evaluator, compared step by step.

A `Comparison` says how two machines stand to each other, how two failing runs may end, and by which faults the first
run may be cut short. It may leave words out: unknown ones, those that open bodies or take text from the line, and those
of a host. `Lawful` asks of it what single elementary steps need, and then every function of the evaluator keeps it, so
that the evaluator is walked here and nowhere else. What words ask for is compared by assumption (`Asks`). Results:
- `Lawful.runWord`, `Lawful.compileWord`, `Lawful.evalWord`: words, outside and inside a compilation;
- `passes_outcomes`, `inLoop_outcomes`, `inCall_outcomes`: loops and calls, if their items are compared;
- `Lawful.evalWords`: the words of a line.
-/
import ReversePolish.Proofs.Dictionary
import ReversePolish.Proofs.Machine.Compile

namespace ReversePolish

/-! ## Kinds of words and faults -/

/-- definitions that the machine itself brings: no scripts, and random words with their generator -/
def Definition.isNative (d : Definition) : Bool :=
  match d.action, d.context with
  | .core _, _ | .operator _, _ | .showStack, _ | .random _, .extension .generator => true
  | _, _ => false

/-- native random words have their generator -/
theorem Definition.context_of_isNative {validator : Validator} {w : RandomWord} {context : Context}
    (h : Definition.isNative ⟨validator, .random w, context⟩ = true) : context = .extension .generator := by
  simp only [Definition.isNative] at h
  split at h <;> simp_all

/-- does the word open a body or take text from the line? -/
def CoreWord.isStructural : CoreWord → Bool
  | .define | .comment | .string | .loop => true
  | _ => false

/-- words that open a body or take text from the line -/
def Definition.isStructural (x : Definition) : Bool :=
  match x.action with
  | .core w => w.isStructural
  | _ => false

/-- can a well-formed body raise the fault? -/
def Fault.isClean : Fault → Bool
  | .malformedNumber _ | .notFound _ | .missingLiteral | .noBody | .noGenerator | .nesting | .unreadable _ _
  | .raised _ _ => false
  | _ => true

/-- the effects on the data stack that words are made of -/
inductive StackStep : {α : Type} → Effect α → Prop
  | push (v : Value) : StackStep (Effect.ofStack (Stack.push v))
  | pop : StackStep (Effect.ofStack Stack.pop)
  | popBoolean : StackStep (Effect.ofStack Stack.popBoolean)
  | popInteger : StackStep (Effect.ofStack Stack.popInteger)
  | bounds : StackStep popBounds
  | operator (o : Operator) : StackStep o.run

/-! ## Comparisons -/

structure Comparison where
  /-- how the machines stand to each other -/
  rel : Machine → Machine → Prop
  /-- how two failing runs may end -/
  fails : Fault → Machine → Fault → Machine → Prop
  /-- faults by which the first run may be cut short -/
  cut : Fault → Prop
  /-- the words that are evaluated, given the dictionary -/
  word : Dictionary → String → Prop
  /-- are bodies opened, and is text taken from the line? -/
  structural : Prop
  /-- is the line read word by word? -/
  line : Prop
  /-- are words of a host run? -/
  host : Prop

namespace Comparison

abbrev Relates {α : Type} (c : Comparison) (r r' : EStateM.Result Fault Machine α) : Prop :=
  Outcomes c.rel c.fails c.cut r r'

structure Lawful (c : Comparison) : Prop where
  compilation : ∀ {m n}, c.rel m n → n.compilation = m.compilation
  seed : ∀ {m n}, c.rel m n → n.seed = m.seed
  /-- what words see of the stack, of the scopes and of the dictionary -/
  events : ∀ {m n}, c.rel m n → n.stack.events = m.stack.events
  findLocal? : ∀ {m n}, c.rel m n → ∀ name, n.findLocal? name = m.findLocal? name
  lookup : ∀ {m n word}, c.rel m n → c.word m.dictionary word →
    n.dictionary.lookup word n.stack = m.dictionary.lookup word m.stack
  contains : ∀ {m n word}, c.rel m n → c.word m.dictionary word →
    n.dictionary.contains word = m.dictionary.contains word
  /-- a definition that runs comes from a host, is native or is installed -/
  found : ∀ {m n word d}, c.rel m n → c.word m.dictionary word → m.dictionary.lookup word m.stack = some d →
    c.host ∨ (d.isNative = true ∧ (c.structural ∨ d.isStructural = false)) ∨
      ∃ b, d = .ofBody b ∧ m.dictionary.body? word = some b
  idle : ∀ {m n}, c.rel m n → m.isCompiling = true → c.structural
  hosted : c.host → c.structural ∧ c.line
  -- elementary steps
  effect : ∀ {α : Type} {x : Effect α} {m n}, StackStep x → c.rel m n →
    c.Relates (MachineM.ofEffect x m) (MachineM.ofEffect x n)
  update : ∀ {f m n}, Update f → c.rel m n → c.rel (f m) (f n)
  edit : ∀ {f m n}, c.structural → Edit m f → c.rel m n → c.rel (f m) (f n)
  taken : ∀ {m n delimiter taken after}, c.structural → c.rel m n →
    Token.takeUntil delimiter m.input = some (taken, after) →
      ∃ after', Token.takeUntil delimiter n.input = some (taken, after') ∧
        c.rel { m with input := after } { n with input := after' }
  untaken : ∀ {m n delimiter}, c.structural → c.rel m n → Token.takeUntil delimiter m.input = none →
    Token.takeUntil delimiter n.input = none ∨ ∀ f, c.cut f
  read : ∀ {m n}, c.line → c.rel m n → n.input = m.input ∧
    ∀ {after}, after <:+ m.input → c.rel { m with input := after } { n with input := after }
  -- faults
  clean : ∀ {f m n}, f.isClean = true → c.rel m n → c.fails f m f n
  unread : ∀ {m n word}, c.rel m n → c.word m.dictionary word → Token.literal word.toList = .malformed →
    c.fails (.malformedNumber word) m (.malformedNumber word) n
  unknown : ∀ {m n word}, c.rel m n → c.word m.dictionary word → Token.literal word.toList = .name →
    m.dictionary.contains word = false → c.fails (.notFound word) m (.notFound word) n
  raised : ∀ {f m n}, c.host → c.rel m n → c.fails f m f n
  -- what happens around a word
  traced : ∀ {m n}, c.rel m n → ∀ word,
    c.rel (m.traced (.word word (String.ofList m.input))) (n.traced (.word word (String.ofList n.input)))
  settle : ∀ {m n}, c.rel m n → ∀ word, c.rel (m.settle word none) (n.settle word none)
  settleFault : ∀ {f m g n}, c.fails f m g n → ∀ word,
    c.fails f (m.settle word (some f)) g (n.settle word (some g)) ∨ c.cut f

/-- what words ask for is compared: the calls that they make, the loops that they close, and all that a host asks -/
structure Asks (c : Comparison) (am an : Answer) : Prop where
  call : ∀ {m n word b}, c.rel m n → c.word m.dictionary word → m.dictionary.body? word = some b →
    c.Relates (am (.body b) m) (an (.body b) n)
  loop : ∀ {m n word b}, c.rel m n → c.word m.dictionary word → m.compilation = ⟨[b]⟩ →
    Compiles m word b [] (.loop b) →
      c.Relates (am (.body b) { m with compilation := {} }) (an (.body b) { n with compilation := {} })
  host : ∀ {r m n}, c.host → c.rel m n → c.Relates (am r m) (an r n)

variable {c : Comparison} {am an : Answer} {m n : Machine} {word : String}

/-- answers that are compared whatever is asked -/
theorem Asks.of_forall (hc : c.Lawful) (hall : ∀ r m n, c.rel m n → c.Relates (am r m) (an r n)) : c.Asks am an where
  call h _ _ := hall _ _ _ h
  loop h _ hframes hloop := by
    cases hloop with
    | close _ named closes kind =>
      have hactive := Machine.isCompiling_of_frames hframes
      exact hall _ _ _ (hc.edit (hc.idle h hactive) (.close _ (by rw [hframes]) kind named) h)
  host _ h := hall _ _ _ h

namespace Lawful

variable (hc : c.Lawful)

include hc

/-! ## Words outside a compilation -/

theorem push (h : c.rel m n) (v : Value) : c.Relates (Machine.push v m) (Machine.push v n) := hc.effect (.push v) h

/-- a word that takes text up to a delimiter -/
theorem takeUntil_bind {α : Type} {delimiter : Char} {missing : Fault} (hs : c.structural) (h : c.rel m n)
    (hmissing : missing.isClean = true) {f g : String → MachineM α}
    (hfg : ∀ taken after after', Token.takeUntil delimiter m.input = some (taken, after) →
      c.rel { m with input := after } { n with input := after' } →
      c.Relates (f (String.ofList taken) { m with input := after })
        (g (String.ofList taken) { n with input := after' })) :
    c.Relates ((Machine.takeUntil delimiter missing >>= f) m) ((Machine.takeUntil delimiter missing >>= g) n) := by
  cases htaken : Token.takeUntil delimiter m.input with
  | some p =>
    obtain ⟨taken, after⟩ := p
    obtain ⟨after', htaken', hafter⟩ := hc.taken hs h htaken
    rw [ReversePolish.takeUntil_bind htaken, ReversePolish.takeUntil_bind htaken']
    exact hfg taken after after' htaken hafter
  | none =>
    rw [takeUntil_bind_missing htaken]
    rcases hc.untaken hs h htaken with htaken' | hcut
    · rw [takeUntil_bind_missing htaken']
      exact .error (hc.clean hmissing h)
    · exact .cut (hcut missing)

theorem coreWord (w : CoreWord) (hs : c.structural ∨ w.isStructural = false) (hidle : m.isCompiling = false)
    (h : c.rel m n) : c.Relates (w.run m) (w.run n) := by
  have hnamed : m.compilation.needsIdent = false := by rw [Machine.compilation_eq_of_idle hidle]; rfl
  have hallowed (hw : w.isStructural = true) : c.structural := hs.resolve_right (by simp [hw])
  cases w with
  | define => exact .ok () (hc.edit (hallowed rfl) (.start .word hnamed fun _ => hidle) h)
  | comment => exact hc.takeUntil_bind (hallowed rfl) h rfl fun _ _ _ _ h => .ok () h
  | string => exact hc.takeUntil_bind (hallowed rfl) h rfl fun _ _ _ _ h => hc.push h _
  | loop => exact .ok () (hc.edit (hallowed rfl) (.start .loop hnamed (by simp)) h)
  | trace => exact (hc.effect .popBoolean h).bind fun on _ _ h => .ok () (hc.update (.tracing on) h)
  | boolean b => exact hc.push h _
  | strayEnd => exact .error (hc.clean rfl h)
  | strayNext => exact .error (hc.clean rfl h)

theorem nextRandom (h : c.rel m n) : c.Relates (nextRandom m) (nextRandom n) := by
  have hadvance := hc.update .advance h
  change c.Relates (.ok (Random.advance m.seed) { m with seed := Random.advance m.seed })
    (.ok (Random.advance n.seed) { n with seed := Random.advance n.seed })
  rw [hc.seed h] at hadvance ⊢
  exact .ok _ hadvance

theorem randomWord (w : RandomWord) {context : Context} (hcontext : context = .extension .generator ∨ c.host)
    (h : c.rel m n) : c.Relates (w.run context m) (w.run context n) := by
  unfold RandomWord.run
  split
  · exact (hc.nextRandom h).bind fun _ _ _ h => hc.push h _
  · exact (hc.nextRandom h).bind fun _ _ _ h => hc.push h _
  · exact (hc.effect .popInteger h).bind fun k _ _ h => .ok () (hc.update (.reseed k) h)
  · rename_i hother
    rcases hcontext with rfl | hhost
    · cases w <;> simp at *
    · exact .error (hc.raised hhost h)

theorem showStack (h : c.rel m n) : c.Relates (showStack m) (showStack n) := by
  change c.Relates (.ok () (m.stack.events.foldl Machine.record m)) (.ok () (n.stack.events.foldl Machine.record n))
  rw [hc.events h]
  generalize m.stack.events = events
  refine .ok () ?_
  induction events generalizing m n with
  | nil => exact h
  | cons e rest ih => exact ih (hc.update (.record e) h)

section Answers

variable (hasks : c.Asks am an)

include hasks

theorem hostStep (hhost : c.host) (context : Context) (step : HostStep) (h : c.rel m n) :
    c.Relates (step.run am context m) (step.run an context n) := by
  obtain ⟨-, hline⟩ := hc.hosted hhost
  obtain ⟨hinput, hread⟩ := hc.read hline h
  cases step with
  | push v => exact hc.push h v
  | drop => exact (hc.effect .pop h).bind fun _ _ _ h => .ok () h
  | rest =>
    change c.Relates (Machine.push (.string (String.ofList m.input)) { m with input := [] })
      (Machine.push (.string (String.ofList n.input)) { n with input := [] })
    rw [hinput]
    exact hc.push (hread List.nil_suffix) _
  | word =>
    have hword : c.Relates (Machine.nextWord m) (Machine.nextWord n) := by
      rw [Machine.nextWord, Machine.nextWord, hinput]
      exact .ok _ (hread (Token.next_suffix m.input))
    exact hword.bind fun _ _ _ h => hc.push h _
  | lookup name =>
    change c.Relates (Machine.push ((m.findLocal? name).getD _) m) (Machine.push ((n.findLocal? name).getD _) n)
    rw [hc.findLocal? h]
    exact hc.push h _
  | eval line => exact hasks.host hhost h
  | call =>
    unfold HostStep.run
    cases context.body? with
    | some b => exact hasks.host hhost h
    | none => exact .error (hc.raised hhost h)
  | context => exact hc.push h _
  | extension => exact hc.push h _
  | extensionIsInteger => exact hc.push h _
  | fail fault => exact .error (hc.raised hhost h)

theorem runScript (hhost : c.host) (context : Context) (steps : List HostStep) (h : c.rel m n) :
    c.Relates (runScript am context steps m) (runScript an context steps n) := by
  induction steps generalizing m n with
  | nil => exact .ok () h
  | cons step rest ih => exact (hc.hostStep hasks hhost context step h).bind fun _ _ _ h => ih h

theorem definition {x : Definition} (hword : c.word m.dictionary word) (hidle : m.isCompiling = false) (h : c.rel m n)
    (hx : c.host ∨ (x.isNative = true ∧ (c.structural ∨ x.isStructural = false)) ∨
      ∃ b, x = .ofBody b ∧ m.dictionary.body? word = some b) :
    c.Relates (x.run am m) (x.run an n) := by
  rcases hx with hhost | ⟨hnative, hs⟩ | ⟨b, rfl, hb⟩
  · unfold Definition.run
    cases x.action with
    | core w => exact hc.coreWord w (.inl (hc.hosted hhost).1) hidle h
    | operator o => exact hc.effect (.operator o) h
    | random w => exact hc.randomWord w (.inr hhost) h
    | showStack => exact hc.showStack h
    | compiled =>
      cases x.context.body? with
      | some b => exact hasks.host hhost h
      | none => exact .error (hc.raised hhost h)
    | script steps => exact hc.runScript hasks hhost x.context steps h
  · obtain ⟨validator, action, context⟩ := x
    cases action with
    | core w => exact hc.coreWord w hs hidle h
    | operator o => exact hc.effect (.operator o) h
    | random w => exact hc.randomWord w (.inl (Definition.context_of_isNative hnative)) h
    | showStack => exact hc.showStack h
    | compiled => simp [Definition.isNative] at hnative
    | script steps => simp [Definition.isNative] at hnative
  · exact hasks.call h hword hb

theorem runWord (hword : c.word m.dictionary word) (hidle : m.isCompiling = false) (h : c.rel m n) :
    c.Relates (runWord am word m) (runWord an word n) := by
  cases hl : Token.literal word.toList with
  | number v =>
    rw [runWord_number hl, runWord_number hl]
    exact hc.push h v
  | malformed =>
    rw [runWord_malformed hl, runWord_malformed hl]
    exact .error (hc.unread h hword hl)
  | name =>
    cases hx : m.dictionary.lookup word m.stack with
    | some x =>
      rw [runWord_lookup hl hx, runWord_lookup hl ((hc.lookup h hword).trans hx)]
      exact hc.definition hasks hword hidle h (hc.found h hword hx)
    | none =>
      rw [runWord_unmatched hl hx, runWord_unmatched hl ((hc.lookup h hword).trans hx), hc.contains h hword]
      cases hcontains : m.dictionary.contains word with
      | true => exact .error (hc.clean rfl h)
      | false => exact .error (hc.unknown h hword hl hcontains)

/-! ## Words inside a compilation -/

theorem compileWord (hne : word ≠ "") (hword : c.word m.dictionary word) (hactive : m.isCompiling = true)
    (h : c.rel m n) : c.Relates (compileWord am word m) (compileWord an word n) := by
  have hs := hc.idle h hactive
  obtain ⟨b, rest, hframes⟩ := Machine.frames_of_compiling hactive
  obtain ⟨step, hstep⟩ := exists_compiles hne m b rest
  have hstep' := hstep.congr (hc.compilation h) (hc.contains h hword)
  rw [compileWord_eq hframes hstep, compileWord_eq ((hc.compilation h).trans hframes) hstep']
  cases hstep with
  | badName | unmatchedEnd | unmatchedNext => exact .error (hc.clean rfl h)
  | unread named plain malformed => exact .error (hc.unread h hword malformed)
  | unknown named plain unknown name absent => exact .error (hc.unknown h hword name absent)
  | comment named opens => exact hc.takeUntil_bind hs h rfl fun _ _ _ _ h => .ok () h
  | literal named opens =>
    refine hc.takeUntil_bind hs h rfl fun taken after _ htaken h => .ok () ?_
    have hquote : '"' ∉ (String.ofList taken).toList := by
      rw [String.toList_ofList]
      exact (Token.takeUntil_eq_some_iff.1 htaken).2
    have hneeds := Machine.needsIdent_of_named hframes named
    exact hc.edit hs (.literal (m := { m with input := after }) _ hactive hneeds hquote) h
  | close outermost named closes kind =>
    subst outermost
    exact hasks.loop h hword hframes (.close rfl named closes kind)
  | name waiting fit => exact .ok () (hc.edit hs ((Compiles.name waiting fit).edit hframes) h)
  | start named opens => exact .ok () (hc.edit hs ((Compiles.start named opens).edit hframes) h)
  | define named ends kind => exact .ok () (hc.edit hs ((Compiles.define named ends kind).edit hframes) h)
  | nest outer others around named closes kind =>
    exact .ok () (hc.edit hs ((Compiles.nest outer others around named closes kind).edit hframes) h)
  | capture named plain known => exact .ok () (hc.edit hs ((Compiles.capture named plain known).edit hframes) h)

/-! ## Words and lines -/

omit hasks in
theorem settled {r r' : EStateM.Result Fault Machine Unit} (h : c.Relates r r') (word : String) :
    c.Relates (settled word r) (settled word r') :=
  h.mapState (fun _ _ h => hc.settle h word) (fun _ _ _ _ h => hc.settleFault h word) fun _ => id

/-- **Words.** A word that may be evaluated keeps the comparison. -/
theorem evalWord (hword : c.word m.dictionary word) (h : c.rel m n) :
    c.Relates (evalWord am word m) (evalWord an word n) := by
  by_cases hne : word = ""
  · subst hne
    exact .ok () h
  · rw [evalWord_eq hne, evalWord_eq hne]
    refine hc.settled ?_ word
    have htraced := hc.traced h word
    obtain ⟨log, hlog⟩ := m.traced_eq (.word word (String.ofList m.input))
    rw [hlog] at htraced ⊢
    generalize n.traced (.word word (String.ofList n.input)) = n₁ at htraced ⊢
    have hsame : n₁.isCompiling = { m with log }.isCompiling := by
      rw [Machine.isCompiling, Machine.isCompiling, hc.compilation htraced]
    rw [hsame]
    split
    · rename_i hactive
      exact hc.compileWord hasks hne (by exact hword) hactive htraced
    · rename_i hidle
      exact hc.runWord hasks (by exact hword) (by simpa using hidle) htraced

omit hasks in
/-- a word of a body, which may be bound -/
theorem runItemWord (h : c.rel m n)
    (hfree : m.findLocal? word = none →
      c.Relates (Machine.withInput [] (ReversePolish.evalWord am word) m)
        (Machine.withInput [] (ReversePolish.evalWord an word) n)) :
    c.Relates (runItemWord am word m) (runItemWord an word n) := by
  have hsame := hc.findLocal? h word
  cases hlocal : m.findLocal? word with
  | some v =>
    rw [runItemWord_local hlocal, runItemWord_local (hsame.trans hlocal)]
    exact hc.push h v
  | none =>
    rw [runItemWord_global hlocal, runItemWord_global (hsame.trans hlocal)]
    exact hfree hlocal

/-- **Lines.** The words of a line, if every word may be evaluated -/
theorem evalWords (hline : c.line) (hwords : ∀ {m n}, c.rel m n → ∀ word, c.word m.dictionary word) (count : Nat)
    (h : c.rel m n) : c.Relates (evalWords am count m) (evalWords an count n) := by
  induction count generalizing m n with
  | zero => exact .ok () h
  | succ count ih =>
    obtain ⟨hinput, hread⟩ := hc.read hline h
    have hnext : c.Relates (Machine.nextWord m) (Machine.nextWord n) := by
      rw [Machine.nextWord, Machine.nextWord, hinput]
      exact .ok _ (hread (Token.next_suffix m.input))
    unfold ReversePolish.evalWords
    refine hnext.bind fun word m n h => ?_
    split
    · exact .ok () h
    · exact (hc.evalWord hasks (hwords h word) h).bind fun _ _ _ h => ih h

end Answers

end Lawful

end Comparison

/-! ## Loops and calls -/

section Bodies

variable {R S : Machine → Machine → Prop} {F G : Fault → Machine → Fault → Machine → Prop} {cut : Fault → Prop}
  {x y : MachineM Unit}

/-- passes are compared if every pass is, from machines that the last one left -/
theorem passes_outcomes {ident : String}
    (hpass : ∀ v m n, S m n → Outcomes S G cut (x (m.bindLocal ident v)) (y (n.bindLocal ident v)))
    (hstuck : ∀ count m n, S m n → G (.stuckCounter count) m (.stuckCounter count) n) (stop count : Float)
    {m n : Machine} (h : S m n) : Outcomes S G cut (passes ident x stop count m) (passes ident y stop count n) := by
  have hone := hpass (.double count) m n h
  rw [passes, passes]
  by_cases hc : count < stop
  · rw [dif_pos hc, dif_pos hc]
    generalize x (m.bindLocal ident (.double count)) = r at hone ⊢
    generalize y (n.bindLocal ident (.double count)) = r' at hone ⊢
    cases hone with
    | error h => exact .error h
    | cut h => exact .cut h
    | @ok _ m' n' h =>
      by_cases hn : count < count + 1.0
      · simp only [hn, dite_true]
        exact passes_outcomes hpass hstuck stop (count + 1.0) h
      · simp only [hn, dite_false]
        exact .error (hstuck count m' n' h)
  · rw [dif_neg hc, dif_neg hc]
    exact .ok () h
termination_by (Double.rank stop - Double.rank count).toNat
decreasing_by
  have hstop := Double.rank_lt_of_lt hc
  have hnext := Double.rank_lt_of_lt hn
  omega

/-- **Loops.** R and F compare the runs outside the loop, S and G inside it. -/
theorem inLoop_outcomes {b : Body} {m n : Machine}
    (hbounds : Outcomes R F cut (MachineM.ofEffect popBounds m) (MachineM.ofEffect popBounds n))
    (hopen : ∀ m n, R m n → S { m with scopes := b.locals :: m.scopes } { n with scopes := b.locals :: n.scopes })
    (hpass : ∀ v m n, S m n → Outcomes S G cut (x (m.bindLocal b.ident v)) (y (n.bindLocal b.ident v)))
    (hstuck : ∀ count m n, S m n → G (.stuckCounter count) m (.stuckCounter count) n)
    (hclose : ∀ m n, S m n → R { m with scopes := m.scopes.tail } { n with scopes := n.scopes.tail })
    (hfail : ∀ f m g n, G f m g n →
      F f { m with scopes := m.scopes.tail } g { n with scopes := n.scopes.tail }) :
    Outcomes R F cut (inLoop b x m) (inLoop b y n) := by
  rw [inLoop_eq, inLoop_eq]
  refine hbounds.bind fun bounds m n h => ?_
  exact (passes_outcomes hpass hstuck bounds.2 bounds.1 (hopen m n h)).mapState hclose
    (fun f m g n h => .inl (hfail f m g n h)) fun _ => id

/-- **Calls.** Both machines refuse the call, or the first is cut short by that, or both run the items. -/
theorem inCall_outcomes {b : Body} {m n : Machine}
    (hrefused : m.maxCallDepth ≤ m.callDepth → cut (.callDepth b.ident m.maxCallDepth) ∨
      (n.maxCallDepth ≤ n.callDepth ∧
        F (.callDepth b.ident m.maxCallDepth) m (.callDepth b.ident n.maxCallDepth) n))
    (hroom : m.callDepth < m.maxCallDepth → n.callDepth < n.maxCallDepth)
    (hitems : m.callDepth < m.maxCallDepth →
      Outcomes S G cut (x { m with callDepth := m.callDepth + 1, scopes := [b.locals] })
        (y { n with callDepth := n.callDepth + 1, scopes := [b.locals] }))
    (hclose : ∀ m' n', S m' n' → R { m' with callDepth := m'.callDepth - 1, scopes := m.scopes }
      { n' with callDepth := n'.callDepth - 1, scopes := n.scopes })
    (hfail : ∀ f m' g n', G f m' g n' → F f { m' with callDepth := m'.callDepth - 1, scopes := m.scopes } g
      { n' with callDepth := n'.callDepth - 1, scopes := n.scopes }) :
    Outcomes R F cut (inCall b x m) (inCall b y n) := by
  by_cases hfull : m.maxCallDepth ≤ m.callDepth
  · rw [inCall_refused hfull]
    rcases hrefused hfull with hcut | ⟨hfull', hF⟩
    · exact .cut hcut
    · rw [inCall_refused hfull']
      exact .error hF
  · have hdepth : m.callDepth < m.maxCallDepth := by omega
    rw [inCall_eq hdepth, inCall_eq (hroom hdepth)]
    exact (hitems hdepth).mapState hclose (fun f m' g n' h => .inl (hfail f m' g n' h)) fun _ => id

end Bodies

end ReversePolish
