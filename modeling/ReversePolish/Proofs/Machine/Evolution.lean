/-
What evaluation makes of a machine.

`Comparison.along` compares a run with another one on the same machine: both do the same, the machine evolves, and a
fault is of a given kind. `Coincide` is the same for steps that are taken from any machine of a kind. Results:
- `Coincide.evalWord`, `Coincide.inLoop`, `Coincide.inCall`, `Coincide.evalLine`: steps that are put together of such
  steps;
- `eval_evolves`, `evalOne_evolves`, `run_evolves`, `call_evolves`: a line, a word or a body, evaluated from any machine
  with any words, makes the machine evolve, whether it succeeds or fails at any depth.
-/
import ReversePolish.Proofs.Machine.Comparison
import ReversePolish.Proofs.Machine.Runner

namespace ReversePolish

/-! ## One machine, compared with itself -/

/-- two runs on one machine that has come from m₀, with these words and these faults, with or without a host -/
def Comparison.along (m₀ : Machine) (Q : Fault → Prop) (word : Dictionary → String → Prop) (host : Prop) :
    Comparison where
  rel m n := n = m ∧ Evolves m₀ m
  fails f m g n := g = f ∧ n = m ∧ Evolves m₀ m ∧ Q f
  cut _ := False
  word := word
  structural := True
  line := True
  host := host

namespace Comparison

variable {m₀ : Machine} {Q : Fault → Prop} {word : Dictionary → String → Prop} {host : Prop}

theorem relates_along_iff {α : Type} {r r' : EStateM.Result Fault Machine α} :
    (along m₀ Q word host).Relates r r' ↔ r' = r ∧ Evolves m₀ r.state ∧ ∀ f, r.error? = some f → Q f := by
  refine same_iff.trans (and_congr_right fun _ => ?_)
  cases r with
  | ok a m => exact ⟨fun h => ⟨h.1 rfl, fun f hf => by cases hf⟩, fun h => ⟨fun _ => h.1, fun f hf => by cases hf⟩⟩
  | error f m =>
    refine ⟨fun h => ⟨(h.2 f rfl).1, fun g hg => (h.2 g hg).2⟩, fun h => ⟨fun hf => (by cases hf), fun g hg => ?_⟩⟩
    exact ⟨h.1, h.2 g hg⟩

/-- all that has to be said is which words are found, and that the faults that they raise are of the kind -/
theorem along_lawful (hclean : ∀ f : Fault, f.isClean = true → Q f)
    (heffect : ∀ {α : Type} {x : Effect α} {s f s'}, StackStep x → x s = .error f s' → Q f)
    (hunread : ∀ m w, Evolves m₀ m → word m.dictionary w → Token.literal w.toList = .malformed →
      Q (.malformedNumber w))
    (hunknown : ∀ m w, Evolves m₀ m → word m.dictionary w → Token.literal w.toList = .name →
      m.dictionary.contains w = false → Q (.notFound w))
    (hfound : ∀ m w d, Evolves m₀ m → word m.dictionary w → m.dictionary.lookup w m.stack = some d →
      host ∨ d.isNative = true ∨ ∃ b, d = .ofBody b ∧ m.dictionary.body? w = some b)
    (hraised : host → ∀ f, Q f) : (along m₀ Q word host).Lawful where
  compilation h := by rw [h.1]
  seed h := by rw [h.1]
  events h := by rw [h.1]
  findLocal? h name := by rw [h.1]
  lookup h _ := by rw [h.1]
  contains h _ := by rw [h.1]
  found h hw hd := (hfound _ _ _ h.2 hw hd).imp_right (Or.imp_left fun hnative => ⟨hnative, .inl trivial⟩)
  idle _ _ := trivial
  hosted _ := ⟨trivial, trivial⟩
  effect {α x m n} hx h := by
    obtain ⟨rfl, hev⟩ := h
    rw [relates_along_iff, MachineM.ofEffect]
    refine ⟨rfl, ?_, fun f hf => ?_⟩
    · split
      · exact hev.trans (.stack _ _)
      · exact hev.trans (.stack _ _)
    · split at hf
      · cases hf
      · rename_i hr
        cases hf
        exact heffect hx hr
  update hf h := ⟨by rw [h.1], h.2.trans (.update hf _)⟩
  edit _ hf h := ⟨by rw [h.1], h.2.trans (.edit hf)⟩
  taken _ h htaken := by
    obtain ⟨rfl, hev⟩ := h
    exact ⟨_, htaken, rfl, hev.trans (.read _ (Token.takeUntil_suffix htaken))⟩
  untaken _ h hnone := .inl (by rw [h.1, hnone])
  read _ h := ⟨by rw [h.1], fun hafter => ⟨by rw [h.1], h.2.trans (.read _ hafter)⟩⟩
  clean hf h := ⟨rfl, h.1, h.2, hclean _ hf⟩
  unread h hw hl := ⟨rfl, h.1, h.2, hunread _ _ h.2 hw hl⟩
  unknown h hw hl hc := ⟨rfl, h.1, h.2, hunknown _ _ h.2 hw hl hc⟩
  raised hhost h := ⟨rfl, h.1, h.2, hraised hhost _⟩
  traced h w := ⟨by rw [h.1], h.2.trans (.traced _ _)⟩
  settle h w := ⟨by rw [h.1], h.2.trans (.settle w none _)⟩
  settleFault h w := by
    obtain ⟨rfl, rfl, hev, hQ⟩ := h
    exact .inl ⟨rfl, rfl, hev.trans (.settle w _ _), hQ⟩

/-- every word and every fault -/
abbrev anyOn (m₀ : Machine) : Comparison := along m₀ (fun _ => True) (fun _ _ => True) True

theorem anyOn_lawful (m₀ : Machine) : (anyOn m₀).Lawful :=
  along_lawful (fun _ _ => trivial) (fun _ _ => trivial) (fun _ _ _ _ _ => trivial) (fun _ _ _ _ _ _ => trivial)
    (fun _ _ _ _ _ _ => .inl trivial) fun _ _ => trivial

end Comparison

/-! ## Steps that coincide -/

abbrev AnyFault : Fault → Prop := fun _ => True

/-- from every machine in P both steps do the same, the machine evolves, and a fault is in Q -/
def Coincide {α : Type} (P : Machine → Prop) (Q : Fault → Prop) (x y : MachineM α) : Prop :=
  ∀ m, P m → y m = x m ∧ Evolves m (x m).state ∧ ∀ f, (x m).error? = some f → Q f

/-- what a machine still is after any evolution -/
def Stable (P : Machine → Prop) : Prop := ∀ m m', Evolves m m' → P m → P m'

/-- a scope that a loop may have: its locals, with the variable bound any number of times -/
inductive LoopScope (b : Body) : List (String × Value) → Prop
  | start : LoopScope b b.locals
  | bind {top : List (String × Value)} (h : LoopScope b top) (v : Value) : LoopScope b (Keyed.insert b.ident v top)

theorem Machine.bindLocal_eq {m : Machine} {top : List (String × Value)} {outer : List (List (String × Value))}
    (h : m.scopes = top :: outer) (name : String) (v : Value) :
    m.bindLocal name v = { m with scopes := Keyed.insert name v top :: outer } := by
  rw [Machine.bindLocal, h]

namespace Coincide

variable {α β : Type} {P R : Machine → Prop} {Q : Fault → Prop}

theorem eq {x y : MachineM α} (h : Coincide P Q x y) {m : Machine} (hm : P m) : y m = x m := (h m hm).1

theorem evolves {x y : MachineM α} (h : Coincide P Q x y) {m : Machine} (hm : P m) : Evolves m (x m).state :=
  (h m hm).2.1

theorem fault {x y : MachineM α} (h : Coincide P Q x y) {m : Machine} (hm : P m) {f : Fault}
    (hf : (x m).error? = some f) : Q f :=
  (h m hm).2.2 f hf

theorem mono {x y : MachineM α} (h : Coincide R Q x y) (hP : ∀ m, P m → R m) : Coincide P Q x y :=
  fun m hm => h m (hP m hm)

theorem pure (a : α) : Coincide P Q (Pure.pure a : MachineM α) (Pure.pure a) :=
  fun m _ => ⟨rfl, .refl m, fun _ hf => by cases hf⟩

theorem throw {f : Fault} (hf : Q f) : Coincide P Q (MonadExcept.throw f : MachineM α) (MonadExcept.throw f) := by
  refine fun m _ => ⟨rfl, .refl m, fun g hg => ?_⟩
  cases hg
  exact hf

theorem bind (hP : Stable P) {x y : MachineM α} {f g : α → MachineM β} (hxy : Coincide P Q x y)
    (hfg : ∀ a, Coincide P Q (f a) (g a)) : Coincide P Q (x >>= f) (y >>= g) := by
  intro m hm
  obtain ⟨heq, hev, hQ⟩ := hxy m hm
  change EStateM.bind y g m = EStateM.bind x f m ∧ _ ∧ ∀ e, (EStateM.bind x f m).error? = _ → _
  change _ ∧ Evolves m (EStateM.bind x f m).state ∧ _
  unfold EStateM.bind
  rw [heq]
  cases hr : x m with
  | ok a m' =>
    rw [hr] at hev
    obtain ⟨heq', hev', hQ'⟩ := hfg a m' (hP _ _ hev hm)
    exact ⟨heq', hev.trans hev', hQ'⟩
  | error e m' =>
    rw [hr] at hev hQ
    exact ⟨rfl, hev, fun f hf => hQ f hf⟩

theorem withInput {x y : MachineM Unit} {text : List Char} (hxy : Coincide R Q x y)
    (hopen : ∀ m, P m → R { m with input := text }) :
    Coincide P Q (Machine.withInput text x) (Machine.withInput text y) := by
  intro m hm
  obtain ⟨heq, hev, hQ⟩ := hxy _ (hopen m hm)
  rw [withInput_eq, withInput_eq, onLine, onLine, heq, EStateM.Result.state_mapState, EStateM.Result.error?_mapState]
  exact ⟨rfl, hev.elsewhere, hQ⟩

/-! ## Loops and calls -/

/-- inside the loop the machine has one scope more, in which the variable is bound -/
theorem inLoop {b : Body} {x y : MachineM Unit} (hxy : Coincide R Q x y)
    (hbounds : Coincide P Q (MachineM.ofEffect popBounds) (MachineM.ofEffect popBounds))
    (hstuck : ∀ count, Q (.stuckCounter count))
    (hopen : ∀ m m' top v, P m → Evolves m { m' with scopes := m.scopes } → LoopScope b top →
      m'.scopes = Keyed.insert b.ident v top :: m.scopes → R m') :
    Coincide P Q (ReversePolish.inLoop b x) (ReversePolish.inLoop b y) := by
  intro m hm
  -- between the passes, only the innermost scope differs from what evaluation outside the loop would leave
  let inside (m' n : Machine) : Prop :=
    n = m' ∧ Evolves m { m' with scopes := m.scopes } ∧ ∃ top, LoopScope b top ∧ m'.scopes = top :: m.scopes
  let failing (f : Fault) (m' : Machine) (g : Fault) (n : Machine) : Prop :=
    g = f ∧ n = m' ∧ (Evolves m { m' with scopes := m.scopes } ∧ ∃ top, m'.scopes = top :: m.scopes) ∧ Q f
  suffices hrun : (Comparison.along m Q (fun _ _ => True) True).Relates (ReversePolish.inLoop b x m)
      (ReversePolish.inLoop b y m) from Comparison.relates_along_iff.1 hrun
  refine inLoop_outcomes (S := inside) (G := failing) (Comparison.relates_along_iff.2 (hbounds m hm)) ?_ ?_ ?_ ?_ ?_
  · rintro m' n ⟨rfl, hev⟩
    have hs := hev.scopes
    refine ⟨rfl, ?_, b.locals, .start, by rw [hs]⟩
    rw [← hs]
    exact hev
  · rintro v m' n ⟨rfl, hev, top, htop, hs⟩
    rw [Machine.bindLocal_eq hs]
    obtain ⟨heq, hstep, hQ⟩ := hxy { n with scopes := Keyed.insert b.ident v top :: m.scopes }
      (hopen m _ top v hm hev htop rfl)
    rw [heq]
    cases hr : x { n with scopes := Keyed.insert b.ident v top :: m.scopes } with
    | ok a m₁ =>
      rw [hr] at hstep
      exact .ok a ⟨rfl, hev.trans (hstep.rescope m.scopes), _, htop.bind v, hstep.scopes⟩
    | error f m₁ =>
      rw [hr] at hstep hQ
      exact .error ⟨rfl, rfl, ⟨hev.trans (hstep.rescope m.scopes), _, hstep.scopes⟩, hQ f rfl⟩
  · rintro count m' n ⟨rfl, hev, top, -, hs⟩
    exact ⟨rfl, rfl, ⟨hev, top, hs⟩, hstuck count⟩
  · rintro m' n ⟨rfl, hev, top, -, hs⟩
    refine ⟨rfl, ?_⟩
    rw [hs]
    exact hev
  · rintro f m' g n ⟨rfl, rfl, ⟨hev, top, hs⟩, hQ⟩
    refine ⟨rfl, rfl, ?_, hQ⟩
    rw [hs]
    exact hev

/-- inside a call the machine has the scopes of the word, and is one call deeper -/
theorem inCall {b : Body} {x y : MachineM Unit} (hxy : Coincide R Q x y)
    (hrefused : ∀ limit, Q (.callDepth b.ident limit))
    (hopen : ∀ m, P m → m.callDepth < m.maxCallDepth →
      R { m with callDepth := m.callDepth + 1, scopes := [b.locals] }) :
    Coincide P Q (ReversePolish.inCall b x) (ReversePolish.inCall b y) := by
  intro m hm
  by_cases hfull : m.maxCallDepth ≤ m.callDepth
  · rw [inCall_refused hfull, inCall_refused hfull]
    refine ⟨rfl, .refl m, fun f hf => ?_⟩
    cases hf
    exact hrefused _
  · have hdepth : m.callDepth < m.maxCallDepth := by omega
    obtain ⟨heq, hev, hQ⟩ := hxy _ (hopen m hm hdepth)
    rw [inCall_eq hdepth, inCall_eq hdepth, returned, returned, heq, EStateM.Result.state_mapState,
      EStateM.Result.error?_mapState]
    exact ⟨rfl, hev.returned, hQ⟩

/-! ## Words and lines, whatever they ask for -/

theorem ofEffect (x : Effect α) : Coincide P AnyFault (MachineM.ofEffect x) (MachineM.ofEffect x) := by
  intro m _
  refine ⟨rfl, ?_, fun _ _ => trivial⟩
  unfold MachineM.ofEffect
  split
  · exact .stack m _
  · exact .stack m _

section Answers

variable {a b : Answer} (hP : Stable P) (hinput : ∀ m text, P m → P { m with input := text })
  (hab : ∀ r, Coincide P AnyFault (a r) (b r))

include hP hab

theorem asks {m : Machine} (hm : P m) : (Comparison.anyOn m).Asks a b := by
  refine .of_forall (Comparison.anyOn_lawful m) ?_
  rintro r m' n ⟨rfl, hev⟩
  obtain ⟨heq, hstep, -⟩ := hab r n (hP _ _ hev hm)
  exact Comparison.relates_along_iff.2 ⟨heq, hev.trans hstep, fun _ _ => trivial⟩

theorem evalWord (word : String) :
    Coincide P AnyFault (ReversePolish.evalWord a word) (ReversePolish.evalWord b word) :=
  fun m hm => Comparison.relates_along_iff.1
    ((Comparison.anyOn_lawful m).evalWord (asks hP hab hm) trivial ⟨rfl, .refl m⟩)

theorem evalWords (count : Nat) :
    Coincide P AnyFault (ReversePolish.evalWords a count) (ReversePolish.evalWords b count) :=
  fun m hm => Comparison.relates_along_iff.1
    ((Comparison.anyOn_lawful m).evalWords (asks hP hab hm) trivial (fun _ _ => trivial) count ⟨rfl, .refl m⟩)

include hinput

theorem runItemWord (word : String) :
    Coincide P AnyFault (ReversePolish.runItemWord a word) (ReversePolish.runItemWord b word) :=
  fun m hm => Comparison.relates_along_iff.1
    ((Comparison.anyOn_lawful m).runItemWord ⟨rfl, .refl m⟩ fun _ =>
      Comparison.relates_along_iff.2 ((evalWord hP hab word).withInput (fun m => hinput m []) m hm))

theorem runItemString (text : String) :
    Coincide P AnyFault (ReversePolish.runItemString a text) (ReversePolish.runItemString b text) :=
  (evalWord hP hab stringWord).withInput fun m => hinput m _

theorem evalLine (line : List Char) :
    Coincide P AnyFault (ReversePolish.evalLine a line) (ReversePolish.evalLine b line) := by
  refine withInput (R := P) (fun m hm => ?_) fun m => hinput m line
  obtain ⟨heq, hev, -⟩ := evalWords hP hab line.length m hm
  rw [heq, reported, EStateM.Result.state_mapState]
  refine ⟨rfl, hev.trans ?_, fun _ _ => trivial⟩
  cases (ReversePolish.evalWords a line.length m).error? with
  | none => exact .refl _
  | some f => exact .record _ _

end Answers

end Coincide

/-! ## Steps that make every machine evolve -/

def Evolving {α : Type} (x : MachineM α) : Prop := ∀ m, Evolves m (x m).state

section Evolving

variable {α : Type}

theorem Evolving.coincide {x : MachineM α} (h : Evolving x) (P : Machine → Prop) : Coincide P AnyFault x x :=
  fun m _ => ⟨rfl, h m, fun _ _ => trivial⟩

theorem Coincide.evolving {x y : MachineM α} (h : Coincide (fun _ => True) AnyFault x y) : Evolving x :=
  fun _ => h.evolves trivial

theorem Evolving.ofEffect (x : Effect α) : Evolving (MachineM.ofEffect x) := (Coincide.ofEffect x).evolving

variable {answer : Answer} (hanswer : ∀ r, Evolving (answer r))

theorem inLoop_evolves {x : MachineM Unit} (b : Body) (hx : Evolving x) : Evolving (inLoop b x) :=
  ((hx.coincide fun _ => True).inLoop (.ofEffect _) (fun _ => trivial) fun _ _ _ _ _ _ _ _ => trivial).evolving

theorem inCall_evolves {x : MachineM Unit} (b : Body) (hx : Evolving x) : Evolving (inCall b x) :=
  ((hx.coincide fun _ => True).inCall (fun _ => trivial) fun _ _ _ => trivial).evolving

include hanswer

theorem evalWord_evolves (word : String) : Evolving (evalWord answer word) :=
  (Coincide.evalWord (fun _ _ _ => id) (fun r => (hanswer r).coincide _) word).evolving

theorem evalWords_evolves (count : Nat) : Evolving (evalWords answer count) :=
  (Coincide.evalWords (fun _ _ _ => id) (fun r => (hanswer r).coincide _) count).evolving

theorem runItemWord_evolves (word : String) : Evolving (runItemWord answer word) :=
  (Coincide.runItemWord (fun _ _ _ => id) (fun _ _ => id) (fun r => (hanswer r).coincide _) word).evolving

theorem runItemString_evolves (text : String) : Evolving (runItemString answer text) :=
  (Coincide.runItemString (fun _ _ _ => id) (fun _ _ => id) (fun r => (hanswer r).coincide _) text).evolving

theorem evalLine_evolves (line : List Char) : Evolving (evalLine answer line) :=
  (Coincide.evalLine (fun _ _ _ => id) (fun _ _ => id) (fun r => (hanswer r).coincide _) line).evolving

theorem evaluating_evolves :
    Runner.Related (Runner.evaluating answer) (Runner.evaluating answer) fun x _ => Evolving x where
  nil m := .refl m
  seq hx hx' := (Coincide.bind (fun _ _ _ => id) (hx.coincide _) fun _ => hx'.coincide _).evolving
  missing m := .refl m
  word := runItemWord_evolves hanswer
  text := runItemString_evolves hanswer
  body b x _ hx := by
    change Evolving (inBody b x)
    cases hk : b.kind with
    | word => exact inBody_word hk x ▸ inCall_evolves b hx
    | loop => exact inBody_loop hk x ▸ inLoop_evolves b hx

theorem runBody_evolves (b : Body) : Evolving (runBody answer b) := (evaluating_evolves hanswer).runBody b

theorem runItems_evolves (items : List Item) : Evolving (runItems answer items) :=
  (evaluating_evolves hanswer).runItems items

end Evolving

/-! ## All nesting -/

theorem answerUpTo_evolves (n : Nat) (r : Request) : Evolving (answerUpTo n r) := by
  induction n generalizing r with
  | zero => exact fun m => .refl m
  | succ n ih =>
    cases r with
    | body b => exact runBody_evolves ih b
    | line text => exact evalLine_evolves ih text

theorem eval_evolves (line : String) (m : Machine) : Evolves m (Machine.eval line m).state :=
  evalLine_evolves (answerUpTo_evolves m.allowance) line.toList m

theorem run_evolves (b : Body) (m : Machine) : Evolves m (Machine.run b m).state :=
  runBody_evolves (answerUpTo_evolves m.allowance) b m

theorem call_evolves (b : Body) (m : Machine) : Evolves m (Machine.call b m).state :=
  inCall_evolves b (runItems_evolves (answerUpTo_evolves m.allowance) b.items) m

theorem evalOne_evolves (word rest : String) (m : Machine) : Evolves m (Machine.evalOne word rest m).1.state := by
  rw [evalOne_eq, withInput_eq, onLine, EStateM.Result.state_mapState]
  exact (evalWord_evolves (answerUpTo_evolves m.allowance) word { m with input := rest.toList }).elsewhere

end ReversePolish
