/-
Two machines in step.

The machines agree in all that words can see, but the second may have looser limits, more text to read behind the line
of the first, or another flag for tracing; a `Gap` says which. `InStep` relates the machines, and `Follows` their
results: the second machine does what the first does, until the first is cut short. Results:
- `Gap.lawful`: machines in step are a comparison of the evaluator;
- `inLoop_inStep`, `inCall_inStep`: loops and calls, if their items are in step;
- `runBody_inStep`, `answerUpTo_inStep`: bodies, whatever they call;
- `eval_inStep`: lines.
-/
import ReversePolish.Proofs.Session
import ReversePolish.Proofs.Word.Draw

namespace ReversePolish

/-! ## Machines in step -/

/-- does the event come from tracing? -/
def Event.isTrace : Event → Bool
  | .word _ _ | .done _ => true
  | _ => false

/-- what was reported, tracing apart -/
def Machine.report (m : Machine) : List Event := m.log.filter (!·.isTrace)

/-- does the fault come from a limit: on the stack, on calls or on nesting? -/
def Fault.isLimit : Fault → Bool
  | .stack e => e.isOverflow
  | .callDepth _ _ | .nesting => true
  | _ => false

theorem Fault.isLimit_of_isOverflow {f : Fault} (h : f.isOverflow = true) : f.isLimit = true := by
  cases f with
  | stack e => exact h
  | _ => cases h

/-- how far two machines may be apart -/
structure Gap where
  /-- may the second machine have looser limits? -/
  loose : Prop
  /-- how the flags for tracing may stand to each other -/
  flags : Bool → Bool → Prop
  /-- a word that sets the flag sets it on both machines -/
  flags_refl : ∀ on, flags on on
  /-- text that only the second machine has left to read -/
  more : List Char
  /-- faults by which the first machine may be cut short -/
  cut : Fault → Prop
  limits : loose → ∀ f : Fault, f.isLimit = true → cut f
  /-- with more text the fault of an open text or comment goes away, so every fault of the first machine is a cut -/
  reads : more = [] ∨ ∀ f, cut f

/-- the gap inside a body, where there is no line to read -/
def Gap.inside (g : Gap) : Gap := { g with more := [], reads := .inl rfl }

structure InStep (g : Gap) (m n : Machine) : Prop where
  stack : n.stack = m.stack ∨ g.loose ∧ m.stack.Looser n.stack
  built : m.dictionary.Built natives
  dictionary : n.dictionary = m.dictionary
  compilation : n.compilation = m.compilation
  scopes : n.scopes = m.scopes
  input : n.input = m.input ++ g.more
  tracing : g.flags m.tracing n.tracing
  status : n.status = m.status
  callDepth : n.callDepth = m.callDepth
  maxCallDepth : n.maxCallDepth = m.maxCallDepth ∨ g.loose ∧ m.maxCallDepth ≤ n.maxCallDepth
  seed : n.seed = m.seed
  report : n.report = m.report

/-- the second machine does what the first does, until the first is cut short -/
abbrev Gap.Follows {α : Type} (g : Gap) (r r' : EStateM.Result Fault Machine α) : Prop :=
  ReversePolish.Follows g.cut (InStep g) r r'

variable {g : Gap} {m n : Machine}

theorem InStep.items (h : InStep g m n) : n.stack.items = m.stack.items := by
  rcases h.stack with heq | ⟨-, hlooser⟩
  · rw [heq]
  · exact hlooser.items

/-- machines with the same limits and the same text to read differ by tracing only -/
theorem InStep.eq_but_tracing (h : InStep g m n) (hloose : ¬ g.loose) (hmore : g.more = []) :
    n = { m with tracing := n.tracing, log := n.log } := by
  have hstack : n.stack = m.stack := h.stack.resolve_right fun hl => hloose hl.1
  have hmax : n.maxCallDepth = m.maxCallDepth := h.maxCallDepth.resolve_right fun hl => hloose hl.1
  have hinput : n.input = m.input := by rw [h.input, hmore, List.append_nil]
  rw [← hstack, ← h.dictionary, ← h.compilation, ← h.scopes, ← hinput, ← h.status, ← h.callDepth, ← hmax, ← h.seed]

theorem Validator.accepts_items (v : Validator) {s t : Stack} (h : t.items = s.items) : v.accepts t = v.accepts s := by
  cases v with
  | kinds slots => simp only [Validator.accepts, h]
  | depth n => rw [Validator.accepts, Validator.accepts, Stack.depth, Stack.depth, h]
  | countOnTop => simp only [Validator.accepts, h]

theorem InStep.lookup (h : InStep g m n) (word : String) :
    n.dictionary.lookup word n.stack = m.dictionary.lookup word m.stack := by
  simp only [Dictionary.lookup, h.dictionary, Validator.accepts_items _ h.items]

/-! ## Elementary steps -/

theorem InStep.record (h : InStep g m n) (e : Event) : InStep g (m.record e) (n.record e) := by
  have hreport : (n.record e).report = (m.record e).report := by
    have := h.report
    simp only [Machine.report, Machine.record, List.filter_cons] at this ⊢
    rw [this]
  exact { h with report := hreport }

theorem Machine.traced_log (m : Machine) {e : Event} (he : e.isTrace = true) :
    ∃ log, m.traced e = { m with log } ∧ { m with log }.report = m.report := by
  unfold Machine.traced
  split
  · exact ⟨_, rfl, by simp [Machine.report, he]⟩
  · exact ⟨m.log, rfl, rfl⟩

/-- events of tracing are not part of the report, so they need not be the same -/
theorem InStep.traced (h : InStep g m n) (e e' : Event) (he : e.isTrace = true) (he' : e'.isTrace = true) :
    InStep g (m.traced e) (n.traced e') := by
  obtain ⟨log, hm, hlog⟩ := m.traced_log he
  obtain ⟨log', hn, hlog'⟩ := n.traced_log he'
  rw [hm, hn]
  exact { h with report := hlog'.trans (h.report.trans hlog.symm) }

theorem InStep.update {f : Machine → Machine} (hf : Update f) (h : InStep g m n) : InStep g (f m) (f n) := by
  cases hf with
  | advance => exact { h with seed := congrArg Random.advance h.seed }
  | reseed k => exact { h with seed := rfl }
  | tracing on => exact { h with tracing := g.flags_refl on }
  | record e => exact h.record e

theorem InStep.mapCompilation (h : InStep g m n) (f : Compilation → Compilation) :
    InStep g (m.mapCompilation f) (n.mapCompilation f) := { h with compilation := congrArg f h.compilation }

theorem InStep.edit {f : Machine → Machine} (hf : Edit m f) (h : InStep g m n) : InStep g (f m) (f n) := by
  cases hf with
  | nest | close => exact { h with compilation := rfl }
  | define b rest _ _ named =>
    have hrecord := h.record (.defined b.ident b.text)
    exact { hrecord with
      compilation := rfl
      built := h.built.install named
      dictionary := congrArg (·.install b) h.dictionary }
  | start | name | capture | literal => exact h.mapCompilation _

theorem StackStep.scales {α : Type} {x : Effect α} (h : StackStep x) : x.Scales := by
  cases h with
  | push v => exact Effect.ofStack_scales (Stack.push_scales v)
  | pop => exact Effect.ofStack_scales Stack.pop_portable.scales
  | popBoolean | popInteger => exact Effect.ofStack_scales (Stack.popWith_scales _ _)
  | bounds => exact popBounds_scales
  | operator o => exact o.run_scales

/-- an effect meets the limit of the first machine, or does the same on both -/
theorem InStep.ofEffect {α : Type} {x : Effect α} (hx : x.Scales) (h : InStep g m n) :
    g.Follows (MachineM.ofEffect x m) (MachineM.ofEffect x n) := by
  unfold MachineM.ofEffect
  rcases h.stack with heq | ⟨hloose, hlooser⟩
  · rw [heq]
    cases x m.stack with
    | ok a s => exact .ok a { h with stack := .inl rfl }
    | error f s => exact Follows.error f { h with stack := .inl rfl }
  · have hrun := hx _ _ hlooser
    generalize x m.stack = r at hrun ⊢
    generalize x n.stack = r' at hrun ⊢
    cases hrun with
    | ok a hs => exact .ok a { h with stack := .inr ⟨hloose, hs⟩ }
    | error hs => exact Outcomes.error ⟨hs.1, { h with stack := .inr ⟨hloose, hs.2⟩ }⟩
    | cut hf => exact .cut (g.limits hloose _ (Fault.isLimit_of_isOverflow hf))

/-- a status quotes the rest of the line after a fault only -/
theorem InStep.settle (h : InStep g m n) (word : String) : InStep g (m.settle word none) (n.settle word none) := by
  have hstatus : InStep g { m with status := statusLine word m.input none }
      { n with status := statusLine word n.input none } := { h with status := rfl }
  exact hstatus.traced _ _ rfl rfl

theorem InStep.settleFault (h : InStep g m n) (hnil : g.more = []) (word : String) (f : Fault) :
    InStep g (m.settle word (some f)) (n.settle word (some f)) := by
  have hinput : n.input = m.input := by rw [h.input, hnil, List.append_nil]
  have hstatus : InStep g { m with compilation := {}, status := statusLine word m.input (some f) }
      { n with compilation := {}, status := statusLine word n.input (some f) } :=
    { h with compilation := rfl, status := by rw [hinput] }
  have htraced := hstatus.traced (.done (statusLine word m.input (some f)))
    (.done (statusLine word n.input (some f))) rfl rfl
  simp only [Machine.settle, Option.isSome_some, if_true]
  split
  · exact { htraced with input := by rw [hnil]; rfl }
  · exact htraced

/-! ## Words -/

/-- machines in step, compared -/
abbrev Gap.comparison (g : Gap) : Comparison where
  rel := InStep g
  fails f m f' n := f' = f ∧ InStep g m n
  cut := g.cut
  word _ _ := True
  structural := True
  line := g.more = []
  host := False

theorem Gap.lawful (g : Gap) : g.comparison.Lawful where
  compilation h := h.compilation
  seed h := h.seed
  events h := by simp only [Stack.events, Stack.depth, h.items]
  findLocal? h name := by rw [Machine.findLocal?, Machine.findLocal?, h.scopes]
  lookup h _ := h.lookup _
  contains h _ := by rw [h.dictionary]
  found h _ hd := by
    rcases h.built.lookup_cases hd with hnative | ⟨b, hb, rfl⟩
    · exact .inr (.inl ⟨isNative_of_mem_natives _ hnative, .inl trivial⟩)
    · exact .inr (.inr ⟨b, rfl, hb⟩)
  idle _ _ := trivial
  hosted := False.elim
  effect hx h := h.ofEffect hx.scales
  update hf h := h.update hf
  edit _ hf h := h.edit hf
  taken {m n _ taken after} _ h htaken := by
    refine ⟨after ++ g.more, ?_, { h with input := rfl }⟩
    rw [h.input]
    exact Token.takeUntil_append g.more htaken
  untaken _ h hnone := g.reads.imp_left fun hnil => by rw [h.input, hnil, List.append_nil, hnone]
  read hnil h := by
    refine ⟨by rw [h.input, hnil, List.append_nil], fun _ => { h with input := ?_ }⟩
    rw [hnil, List.append_nil]
  clean _ h := ⟨rfl, h⟩
  unread h _ _ := ⟨rfl, h⟩
  unknown h _ _ _ := ⟨rfl, h⟩
  raised := False.elim
  traced h _ := h.traced _ _ rfl rfl
  settle h word := h.settle word
  settleFault {f _ _ _} h word := by
    obtain ⟨rfl, h⟩ := h
    rcases g.reads with hnil | hall
    · exact .inl ⟨rfl, h.settleFault hnil word _⟩
    · exact .inr (hall _)

/-- answers to the requests of two machines in step -/
def AnswersInStep (g : Gap) (am an : Answer) : Prop :=
  ∀ b m n, InStep g m n → g.Follows (am (.body b) m) (an (.body b) n)

theorem AnswersInStep.asks {am an : Answer} (h : AnswersInStep g am an) : g.comparison.Asks am an where
  call hm _ _ := h _ _ _ hm
  loop hm _ _ _ := h _ _ _ { hm with compilation := rfl }
  host := False.elim

theorem evalWord_inStep {am an : Answer} (hanswers : AnswersInStep g am an) (word : String) (h : InStep g m n) :
    g.Follows (evalWord am word m) (evalWord an word n) :=
  g.lawful.evalWord hanswers.asks trivial h

/-! ## Loops and calls -/

/-- the steps do the same from machines in step -/
def StepsInStep (g : Gap) (x y : MachineM Unit) : Prop := ∀ m n, InStep g m n → g.Follows (x m) (y n)

/-- steps on another line, after which both machines return to their own -/
theorem withInput_inStep {x y : MachineM Unit} (hxy : StepsInStep g.inside x y) (text : List Char) :
    StepsInStep g (Machine.withInput text x) (Machine.withInput text y) := by
  intro m n h
  rw [withInput_eq, withInput_eq]
  refine (hxy { m with input := text } { n with input := text }
    { h with input := (List.append_nil text).symm }).mapState (fun _ _ h' => { h' with input := h.input })
    (fun _ _ _ _ h' => .inl ⟨h'.1, { h'.2 with input := h.input }⟩) fun _ => id

theorem InStep.bindLocal (h : InStep g m n) (name : String) (v : Value) :
    InStep g (m.bindLocal name v) (n.bindLocal name v) := by
  unfold Machine.bindLocal
  rw [h.scopes]
  cases m.scopes with
  | nil => exact h
  | cons scope outer => exact { h with scopes := rfl }

theorem inLoop_inStep (b : Body) {x y : MachineM Unit} (hxy : StepsInStep g x y) :
    StepsInStep g (inLoop b x) (inLoop b y) := by
  intro m n h
  refine inLoop_outcomes (h.ofEffect popBounds_scales) (fun _ _ h => { h with scopes := by rw [h.scopes] })
    (fun v m n h => hxy _ _ (h.bindLocal b.ident v)) (fun _ _ _ h => ⟨rfl, h⟩)
    (fun _ _ h => { h with scopes := by rw [h.scopes] })
    fun _ _ _ _ h => ⟨h.1, { h.2 with scopes := by rw [h.2.scopes] }⟩

/-- where the first machine is not refused a call, the second is not either -/
theorem inCall_inStep (b : Body) {x y : MachineM Unit} (hxy : StepsInStep g x y) :
    StepsInStep g (inCall b x) (inCall b y) := by
  intro m n h
  refine inCall_outcomes (fun hfull => ?_) (fun hroom => ?_)
    (fun _ => hxy _ _ { h with scopes := rfl, callDepth := by rw [h.callDepth] })
    (fun _ _ h' => { h' with scopes := h.scopes, callDepth := by rw [h'.callDepth] })
    fun _ _ _ _ h' => ⟨h'.1, { h'.2 with scopes := h.scopes, callDepth := by rw [h'.2.callDepth] }⟩
  · rcases h.maxCallDepth with heq | ⟨hloose, -⟩
    · rw [heq, h.callDepth]
      exact .inr ⟨hfull, rfl, h⟩
    · exact .inl (g.limits hloose _ rfl)
  · rw [h.callDepth]
    rcases h.maxCallDepth with heq | ⟨-, hle⟩ <;> omega

/-! ## Items, whatever they call -/

section Items

variable {am an : Answer} (hanswers : AnswersInStep g.inside am an)

include hanswers

theorem evaluating_inStep :
    Runner.Related (Runner.evaluating am) (Runner.evaluating an) (StepsInStep g) where
  nil _ _ h := .ok () h
  seq hx hx' m n h := (hx m n h).bind fun _ m n h => hx' m n h
  missing _ _ h := Follows.error _ h
  word word m n h := g.lawful.runItemWord h fun _ =>
    withInput_inStep (fun _ _ h => evalWord_inStep hanswers word h) [] m n h
  text text := withInput_inStep (fun _ _ h => evalWord_inStep hanswers stringWord h) _
  body b x y hxy := by
    change StepsInStep g (inBody b x) (inBody b y)
    cases hk : b.kind with
    | word =>
      rw [inBody_word hk, inBody_word hk]
      exact inCall_inStep b hxy
    | loop =>
      rw [inBody_loop hk, inBody_loop hk]
      exact inLoop_inStep b hxy

theorem runBody_inStep (b : Body) : StepsInStep g (runBody am b) (runBody an b) :=
  (evaluating_inStep hanswers).runBody b

end Items

/-! ## Nesting and lines -/

/-- the second machine allows as much nesting as the first, or more if its limits may be looser -/
def Gap.Nests (g : Gap) (k l : Nat) : Prop := k = l ∨ g.loose ∧ k ≤ l

theorem answerUpTo_inStep (k l : Nat) (g : Gap) (hnests : g.Nests k l) :
    AnswersInStep g (answerUpTo k) (answerUpTo l) := by
  induction k generalizing l g with
  | zero =>
    intro b m n h
    rcases hnests with rfl | ⟨hloose, -⟩
    · exact Follows.error _ h
    · exact .cut (g.limits hloose _ rfl)
  | succ k ih =>
    obtain ⟨l, rfl⟩ : ∃ j, l = j + 1 := ⟨l - 1, by rcases hnests with rfl | ⟨-, hle⟩ <;> omega⟩
    have hnests' : g.Nests k l := hnests.imp (by omega) fun hle => ⟨hle.1, by omega⟩
    exact fun b m n h => runBody_inStep (ih l g.inside hnests') b m n h

theorem evalLine_inStep {am an : Answer} (hanswers : AnswersInStep g.inside am an) (line : List Char) :
    StepsInStep g (evalLine am line) (evalLine an line) := by
  refine withInput_inStep (fun m n h => ?_) line
  have hwords := g.inside.lawful.evalWords hanswers.asks rfl (fun _ _ => trivial) line.length h
  refine hwords.mapState (fun _ _ => id) (fun f m f' n h => ?_) fun _ => id
  obtain ⟨rfl, h⟩ := h
  refine .inl ⟨rfl, ?_⟩
  dsimp only [Option.elim]
  rw [h.status]
  exact h.record _

theorem InStep.nests (h : InStep g m n) : g.Nests m.allowance n.allowance := by
  unfold Gap.Nests Machine.allowance
  exact h.maxCallDepth.imp (by omega) fun hle => ⟨hle.1, by omega⟩

theorem eval_inStep (line : String) (h : InStep g m n) : g.Follows (Machine.eval line m) (Machine.eval line n) :=
  evalLine_inStep (answerUpTo_inStep _ _ g.inside h.nests) line.toList m n h

end ReversePolish
