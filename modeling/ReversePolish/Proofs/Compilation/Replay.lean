/-
What the items of a running body do while a body is open.

A word can open a body in the middle of a run, and the items that follow it are then replayed into the open body. Here
they are run once more with no words at hand: where a word would be executed, anything else is done instead
(`runItemsCapturing`). Results:
- `evalWord_plain`, `evalWord_text`: a word or a text that is typed into an open body leaves the data stack and the
  scopes as they are;
- `runItems_capturing`: to have no words at hand makes no difference, so no word is executed; the dictionary, the
  generator and tracing stay as they are, and the open body gains words only.
-/
import ReversePolish.Proofs.Compilation.Sound

namespace ReversePolish

/-! ## Items with no words at hand -/

/-- a word that can only be captured: if no body is open, or if it asks to run one, anything else is done -/
def captureWord (beyond : MachineM Unit) (word : String) : MachineM Unit := fun m =>
  if m.isCompiling then evalWord (fun _ => beyond) word m else beyond m

/-- a word of a body: a local of that name is pushed, anything else is captured -/
def captureItemWord (beyond : MachineM Unit) (word : String) : MachineM Unit := do
  match (← get).findLocal? word with
  | some v => Machine.push v
  | none => Machine.withInput [] (captureWord beyond word)

/-- a text in a body -/
def captureItemString (beyond : MachineM Unit) (text : String) : MachineM Unit :=
  Machine.withInput (text.toList ++ ['"']) (captureWord beyond stringWord)

/-- a loop is run, a word is not called -/
def captureBody (beyond : MachineM Unit) (b : Body) (run : MachineM Unit) : MachineM Unit :=
  match b.kind with
  | .word => beyond
  | .loop => inLoop b run

def Runner.capturing (beyond : MachineM Unit) : Runner MachineM where
  word := captureItemWord beyond
  text := captureItemString beyond
  body := captureBody beyond

/-- runs items that can only be captured -/
def runItemsCapturing (beyond : MachineM Unit) : List Item → MachineM Unit := (Runner.capturing beyond).runItems

/-! ## What a replay keeps -/

/-- the innermost open body has more words, and has perhaps got its name -/
def Gains (c c' : Compilation) : Prop :=
  ∃ b outer ident words, c = ⟨b :: outer⟩ ∧ (b.ident = ident ∨ b.ident = "") ∧
    c' = ⟨{ b with ident, items := b.items ++ List.map Item.word words } :: outer⟩

namespace Gains

variable {c c' c'' : Compilation}

theorem refl (h : c.isActive = true) : Gains c c := by
  obtain ⟨frames⟩ := c
  cases frames with
  | nil => cases h
  | cons b outer =>
    obtain ⟨kind, ident, items, locals⟩ := b
    exact ⟨_, outer, ident, [], rfl, .inl rfl, by simp⟩

theorem trans (h : Gains c c') (h' : Gains c' c'') : Gains c c'' := by
  obtain ⟨b, outer, ident, words, rfl, hident, rfl⟩ := h
  obtain ⟨b', outer', ident', words', heq, hident', rfl⟩ := h'
  obtain ⟨rfl, rfl⟩ : _ = b' ∧ outer = outer' := by simpa using heq
  refine ⟨b, outer, ident', words ++ words', rfl, ?_, by simp⟩
  rcases hident with rfl | hempty
  · exact hident'
  · exact .inr hempty

theorem isActive (h : Gains c c') : c'.isActive = true := by
  obtain ⟨b, outer, ident, words, -, -, rfl⟩ := h
  rfl

end Gains

/-- the dictionary, the generator and tracing are as before, if nothing fails the open body has gained words only, and
the word that opens a loop is not refused as a name -/
structure Kept {α : Type} (m : Machine) (r : EStateM.Result Fault Machine α) : Prop where
  dictionary : r.state.dictionary = m.dictionary
  seed : r.state.seed = m.seed
  tracing : r.state.tracing = m.tracing
  gains : r.error? = none → Gains m.compilation r.state.compilation
  fault : r.error? ≠ some (.badName "FOR")

namespace Kept

variable {α β : Type} {m : Machine}

/-- after a step that succeeds -/
theorem trans {a : α} {m' : Machine} {r : EStateM.Result Fault Machine β}
    (h : Kept m (.ok a m' : EStateM.Result Fault Machine α)) (h' : Kept m' r) : Kept m r :=
  ⟨h'.dictionary.trans h.dictionary, h'.seed.trans h.seed, h'.tracing.trans h.tracing,
    fun hok => (h.gains rfl).trans (h'.gains hok), h'.fault⟩

theorem error {m' : Machine} {f : Fault} (hdictionary : m'.dictionary = m.dictionary) (hseed : m'.seed = m.seed)
    (htracing : m'.tracing = m.tracing) (hf : f ≠ .badName "FOR") :
    Kept m (.error f m' : EStateM.Result Fault Machine α) :=
  ⟨hdictionary, hseed, htracing, fun h => (by cases h), fun h => hf (Option.some.inj h)⟩

theorem pure (a : α) (hactive : m.isCompiling = true) : Kept m ((Pure.pure a : MachineM α) m) :=
  ⟨rfl, rfl, rfl, fun _ => .refl hactive, fun h => by cases h⟩

theorem ofEffect {x : Effect α} (hx : x.Blames) (hactive : m.isCompiling = true) : Kept m (MachineM.ofEffect x m) := by
  unfold MachineM.ofEffect
  cases hr : x m.stack with
  | ok a s => exact ⟨rfl, rfl, rfl, fun _ => .refl hactive, fun h => by cases h⟩
  | error f s =>
    refine .error rfl rfl rfl fun h => ?_
    subst h
    cases hx _ _ _ hr

theorem withInput {x : MachineM Unit} {text : List Char}
    (h : Kept { m with input := text } (x { m with input := text })) : Kept m (Machine.withInput text x m) := by
  rw [withInput_eq]
  generalize x { m with input := text } = r at h ⊢
  cases r <;> exact ⟨h.dictionary, h.seed, h.tracing, h.gains, h.fault⟩

theorem isCompiling {a : α} {m' : Machine} (h : Kept m (.ok a m' : EStateM.Result Fault Machine α)) :
    m'.isCompiling = true :=
  (h.gains rfl).isActive

end Kept

/-! ## Single words -/

section Words

variable {m : Machine} {word : String}

/-- of the words that act while compiling, only the end of a loop can ask to run something -/
theorem evalWord_compiling_congr (a a' : Answer) (hactive : m.isCompiling = true) (hword : word ≠ "NEXT") :
    evalWord a word m = evalWord a' word m := by
  by_cases hempty : word = ""
  · subst hempty
    rfl
  -- the report on the word is the same on both sides, so the word itself is left to compare
  obtain ⟨log, hlog⟩ := m.traced_eq (.word word (String.ofList m.input))
  have hactive' : { m with log }.isCompiling = true := hactive
  rw [evalWord_eq hempty, evalWord_eq hempty, hlog, if_pos hactive', if_pos hactive']
  obtain ⟨b, rest, hframes⟩ := Machine.frames_of_compiling hactive'
  obtain ⟨step, hstep⟩ := exists_compiles hempty { m with log } b rest
  rw [compileWord_eq hframes hstep, compileWord_eq hframes hstep]
  cases hstep with
  | close _ _ closes _ => exact absurd closes hword
  | _ => rfl

theorem captureWord_eq (beyond : MachineM Unit) (answer : Answer) (hactive : m.isCompiling = true)
    (hword : word ≠ "NEXT") : captureWord beyond word m = evalWord answer word m := by
  unfold captureWord
  rw [if_pos hactive]
  exact evalWord_compiling_congr _ _ hactive hword

/-- is the fault about a word that cannot be captured? -/
def Fault.isRefusal : Fault → Bool
  | .badName _ | .malformedNumber _ | .notFound _ => true
  | _ => false

/-- what a replay keeps is kept, and the data stack and the scopes too; a word that is not captured is refused -/
structure LeavesData (m : Machine) (r : EStateM.Result Fault Machine Unit) : Prop extends Kept m r where
  stack : r.state.stack = m.stack
  scopes : r.state.scopes = m.scopes
  refusal : ∀ f, r.error? = some f → f.isRefusal = true

namespace LeavesData

theorem pure (hactive : m.isCompiling = true) : LeavesData m ((Pure.pure () : MachineM Unit) m) :=
  ⟨.pure () hactive, rfl, rfl, fun _ h => by cases h⟩

/-- after a step that succeeds -/
theorem trans {a : Unit} {m' : Machine} {r : EStateM.Result Fault Machine Unit} (h : LeavesData m (.ok a m'))
    (h' : LeavesData m' r) : LeavesData m r :=
  ⟨h.toKept.trans h'.toKept, h'.stack.trans h.stack, h'.scopes.trans h.scopes, h'.refusal⟩

theorem withInput {x : MachineM Unit} {text : List Char}
    (h : LeavesData { m with input := text } (x { m with input := text })) :
    LeavesData m (Machine.withInput text x m) := by
  have hkept := h.toKept.withInput
  rw [withInput_eq] at hkept ⊢
  generalize x { m with input := text } = r at h hkept ⊢
  cases r <;> exact ⟨hkept, h.stack, h.scopes, h.refusal⟩

/-- a word that is refused gives up the open body, and nothing else -/
theorem evalWord_refused (answer : Answer) {b : Body} {outer : List Body} {f : Fault} (hword : word ≠ "")
    (hframes : m.compilation = ⟨b :: outer⟩) (h : Compiles m word b outer (.fail f)) (hrefusal : f.isRefusal = true)
    (hfor : f ≠ .badName "FOR") : LeavesData m (evalWord answer word m) := by
  obtain ⟨log, hlog⟩ := evalWord_compiling answer hword (Machine.isCompiling_of_frames hframes)
  obtain ⟨status, log', hsettle⟩ := Machine.settle_some { m with log } word f
  have hfail : compileWord answer word { m with log } = .error f { m with log } :=
    compileWord_eq (m := { m with log }) hframes (h.congr rfl rfl) answer
  rw [hlog, hfail, settled_error, hsettle]
  refine ⟨.error rfl rfl rfl hfor, rfl, rfl, fun g hg => ?_⟩
  rwa [← Option.some.inj hg]

/-- a word that is captured -/
theorem evalWord_captured (answer : Answer) {frames : List Body} {input : List Char} (hword : word ≠ "")
    (h : Captured m word frames input) (hgains : Gains m.compilation ⟨frames⟩) :
    LeavesData m (evalWord answer word m) := by
  obtain ⟨status, log, hres⟩ := ReversePolish.evalWord_captured answer hword h
  rw [hres]
  exact ⟨⟨rfl, rfl, rfl, fun _ => hgains, fun h => by cases h⟩, rfl, rfl, fun _ h => by cases h⟩

end LeavesData

/-- a name that is given -/
theorem Gains.name {b : Body} (outer : List Body) (hwaiting : b.ident = "") (ident : String) :
    Gains ⟨b :: outer⟩ ⟨{ b with ident } :: outer⟩ := ⟨b, outer, ident, [], rfl, .inr hwaiting, by simp⟩

/-- words that are added -/
theorem Gains.words (b : Body) (outer : List Body) (words : List String) :
    Gains ⟨b :: outer⟩ ⟨b.pushAll (words.map Item.word) :: outer⟩ :=
  ⟨b, outer, b.ident, words, rfl, .inl rfl, rfl⟩

/-- a plain word is the name that is waited for, or it is captured, or it is refused -/
theorem evalWord_plain (answer : Answer) (hactive : m.isCompiling = true) (hplain : CompileWord.ofName? word = none) :
    LeavesData m (evalWord answer word m) := by
  by_cases hword : word = ""
  · subst hword
    exact .pure hactive
  obtain ⟨b, outer, hframes⟩ := Machine.frames_of_compiling hactive
  obtain ⟨step, hstep⟩ := exists_compiles hword m b outer
  cases hstep with
  | name waiting fit =>
    exact .evalWord_captured answer hword (.name b outer hframes waiting fit) (hframes ▸ .name outer waiting word)
  | badName waiting unfit =>
    refine .evalWord_refused answer hword hframes (.badName waiting unfit) rfl fun h => ?_
    rw [Fault.badName.inj h] at hplain
    cases hplain
  | capture named plain known =>
    exact .evalWord_captured answer hword (.word b outer hframes named plain known) (hframes ▸ .words b outer [word])
  | unread named plain malformed =>
    exact .evalWord_refused answer hword hframes (.unread named plain malformed) rfl (by simp)
  | unknown named plain unknown name absent =>
    exact .evalWord_refused answer hword hframes (.unknown named plain unknown name absent) rfl (by simp)
  | comment _ acts | literal _ acts | start _ acts | define _ acts | unmatchedEnd _ acts | nest _ _ _ _ acts
  | close _ _ acts | unmatchedNext _ acts =>
    subst acts
    cases hplain

/-- a text that has no quote in it -/
theorem evalWord_text (answer : Answer) (hactive : m.isCompiling = true) {text : String} (hquote : '"' ∉ text.toList)
    (hinput : m.input = text.toList ++ ['"']) : LeavesData m (evalWord answer stringWord m) := by
  obtain ⟨b, outer, hframes⟩ := Machine.frames_of_compiling hactive
  by_cases hwaiting : b.ident = ""
  · exact .evalWord_refused answer (by decide) hframes (.badName hwaiting (by decide)) rfl fun h =>
      absurd (Fault.badName.inj h) (by decide)
  · have htaken : Token.takeUntil '"' m.input = some (text.toList, []) :=
      Token.takeUntil_eq_some_iff.2 ⟨hinput, hquote⟩
    have hgains := Gains.words b outer [stringWord, text]
    refine .evalWord_captured answer (by decide) (.literal b outer hframes hwaiting rfl _ _ htaken) ?_
    rw [String.ofList_toList, hframes]
    simpa [Body.pushAll, Body.push] using hgains

end Words

/-! ## Items -/

section Items

variable {m : Machine}

theorem unbound_leavesData (answer : Answer) (hactive : m.isCompiling = true) {word : String}
    (hplain : CompileWord.ofName? word = none) : LeavesData m (Machine.withInput [] (evalWord answer word) m) :=
  .withInput (evalWord_plain answer (m := { m with input := [] }) hactive hplain)

theorem runItemString_leavesData (answer : Answer) (hactive : m.isCompiling = true) {text : String}
    (hquote : '"' ∉ text.toList) : LeavesData m (runItemString answer text m) :=
  .withInput (evalWord_text answer (m := { m with input := text.toList ++ ['"'] }) hactive hquote rfl)

theorem runItemWord_kept (answer : Answer) (hactive : m.isCompiling = true) {word : String}
    (hplain : CompileWord.ofName? word = none) : Kept m (runItemWord answer word m) := by
  cases hlocal : m.findLocal? word with
  | some v =>
    rw [runItemWord_local hlocal]
    exact .ofEffect (.ofStack _) hactive
  | none =>
    rw [runItemWord_global hlocal]
    exact (unbound_leavesData answer hactive hplain).toKept

theorem captureItemWord_eq (beyond : MachineM Unit) (answer : Answer) (hactive : m.isCompiling = true) {word : String}
    (hplain : CompileWord.ofName? word = none) : captureItemWord beyond word m = runItemWord answer word m := by
  have hnext : word ≠ "NEXT" := by
    rintro rfl
    cases hplain
  unfold captureItemWord runItemWord
  rw [get_bind, get_bind]
  cases m.findLocal? word with
  | some v => rfl
  | none => exact congrArg (onLine m.input) (captureWord_eq (m := { m with input := [] }) beyond answer hactive hnext)

theorem captureItemString_eq (beyond : MachineM Unit) (answer : Answer) (hactive : m.isCompiling = true)
    (text : String) : captureItemString beyond text m = runItemString answer text m :=
  congrArg (onLine m.input)
    (captureWord_eq (m := { m with input := text.toList ++ ['"'] }) beyond answer hactive (by decide))

end Items

/-! ## Replays -/

/-- both runs are the same, and keep what a replay keeps -/
abbrev Replay {α : Type} (m : Machine) (r r' : EStateM.Result Fault Machine α) : Prop :=
  Same (fun m' => Kept m (.ok () m' : EStateM.Result Fault Machine Unit))
    (fun f m' => Kept m (.error f m' : EStateM.Result Fault Machine Unit)) r r'

theorem replay_iff {m : Machine} {r r' : EStateM.Result Fault Machine Unit} : Replay m r r' ↔ r' = r ∧ Kept m r := by
  refine same_iff.trans (and_congr_right fun _ => ?_)
  cases r with
  | ok a m' => exact ⟨fun h => h.1 rfl, fun h => ⟨fun _ => h, fun f hf => by cases hf⟩⟩
  | error f m' =>
    refine ⟨fun h => h.2 f rfl, fun h => ⟨fun hf => (by cases hf), fun g hg => ?_⟩⟩
    cases hg
    exact h

theorem Kept.replay {α : Type} {m : Machine} {r : EStateM.Result Fault Machine α} (h : Kept m r) : Replay m r r := by
  cases r with
  | ok a m' => exact .ok a ⟨rfl, h.dictionary, h.seed, h.tracing, h.gains, h.fault⟩
  | error f m' => exact .error ⟨rfl, rfl, h.dictionary, h.seed, h.tracing, h.gains, h.fault⟩

/-- while a body is open, both steps do the same, and keep what a replay keeps -/
def Replays (x y : MachineM Unit) : Prop := ∀ m : Machine, m.isCompiling = true → y m = x m ∧ Kept m (x m)

/-- a step that follows another one -/
theorem Replays.after {x y : MachineM Unit} (h : Replays x y) {m m' : Machine}
    (hm : Kept m (.ok () m' : EStateM.Result Fault Machine Unit)) : Replay m (x m') (y m') := by
  obtain ⟨heq, hkept⟩ := h m' hm.isCompiling
  exact replay_iff.2 ⟨heq, hm.trans hkept⟩

theorem Replays.bind {x x' y y' : MachineM Unit} (hx : Replays x y) (hx' : Replays x' y') :
    Replays (do x; x') (do y; y') := by
  intro m hm
  refine replay_iff.1 ((replay_iff.2 (hx m hm)).bind fun _ m' n h => ?_)
  obtain ⟨rfl, hkept⟩ := h
  exact hx'.after hkept

/-- a loop does what its items do, pass after pass -/
theorem Replays.inLoop {b : Body} {x y : MachineM Unit} (hxy : Replays x y) : Replays (inLoop b x) (inLoop b y) := by
  intro m hm
  -- outside the loop and inside it, the machine keeps the same
  refine replay_iff.1 (inLoop_outcomes
    (S := fun m' n => n = m' ∧ Kept m (.ok () m' : EStateM.Result Fault Machine Unit))
    (G := fun f m' g n => g = f ∧ n = m' ∧ Kept m (.error f m' : EStateM.Result Fault Machine Unit))
    (Kept.ofEffect popBounds_blames hm).replay ?_ ?_ ?_ ?_ ?_)
  · rintro m' n ⟨rfl, h⟩
    exact ⟨rfl, h.dictionary, h.seed, h.tracing, h.gains, h.fault⟩
  · rintro v m' n ⟨rfl, h⟩
    -- binding the variable changes nothing that a replay keeps
    refine hxy.after ?_
    unfold Machine.bindLocal
    split
    · exact h
    · exact ⟨h.dictionary, h.seed, h.tracing, h.gains, h.fault⟩
  · rintro count m' n ⟨rfl, h⟩
    exact ⟨rfl, rfl, .error h.dictionary h.seed h.tracing (by simp)⟩
  · rintro m' n ⟨rfl, h⟩
    exact ⟨rfl, h.dictionary, h.seed, h.tracing, h.gains, h.fault⟩
  · rintro f m' g n ⟨rfl, rfl, h⟩
    exact ⟨rfl, rfl, h.dictionary, h.seed, h.tracing, h.gains, h.fault⟩

theorem capturing_related (beyond : MachineM Unit) (answer : Answer) (ok : List String → String → Prop) :
    Runner.RelatedOn ok (Runner.evaluating answer) (Runner.capturing beyond) fun _ => Replays where
  nil _ _ hm := ⟨rfl, .pure () hm⟩
  seq hx hx' := hx.bind hx'
  word hplain _ _ hm := ⟨captureItemWord_eq beyond answer hm hplain, runItemWord_kept answer hm hplain⟩
  text hquote _ hm := ⟨captureItemString_eq beyond answer hm _, (runItemString_leavesData answer hm hquote).toKept⟩
  loop _ hitems := hitems.inLoop

/-- **Replayed items.** While a body is open, well-formed items are captured, pushed or looped over, and no word is
executed. -/
theorem runItems_capturing (beyond : MachineM Unit) (answer : Answer) {d : Dictionary} {scope : List String}
    {items : List Item} (h : WellFormed d scope items) (m : Machine) (hactive : m.isCompiling = true) :
    runItemsCapturing beyond items m = runItems answer items m ∧ Kept m (runItems answer items m) :=
  (capturing_related beyond answer d.Knows).runItems h m hactive

end ReversePolish
