/-
Validators cover the actions of their definitions.

An action has a demand, the shape of the stack that it draws on. Every native definition is registered with a validator
that implies the demand of its action (`natives_meet_demand`), so an action that is run on a stack which its validator
accepts does not fail over the shape of the stack (`validator_covers_action`): it misses no operand, no kind, no count
in range and no generator.
-/
import ReversePolish.Proofs.Session
import ReversePolish.Proofs.Word.Draw

namespace ReversePolish

/-! ## Steps of the machine -/

/-- where the validator accepts the stack, the step does not fail over its shape -/
def MachineM.Covers {α : Type} (x : MachineM α) (before : Validator) : Prop :=
  ∀ m f m', before.accepts m.stack = true → x m = .error f m' → f.isShape = false

namespace MachineM.Covers

variable {α β : Type} {before : Validator}

theorem ofEffect {x : Effect α} {after : α → Validator} (hx : x.Covers before after) :
    (MachineM.ofEffect x).Covers before := by
  intro m f m' hm hrun
  have hcovered := hx m.stack hm
  unfold MachineM.ofEffect at hrun
  generalize x m.stack = r at hcovered hrun
  cases hcovered with
  | ok h => cases hrun
  | error h =>
    cases hrun
    exact h

theorem bind {x : MachineM α} {g : α → MachineM β} (hx : x.Covers before) (hg : ∀ a, (g a).Covers (.depth 0)) :
    (x >>= g).Covers before := by
  intro m f m' hm hrun
  change EStateM.bind x g m = _ at hrun
  unfold EStateM.bind at hrun
  split at hrun
  · rename_i a m₁ _
    exact hg a m₁ f m' rfl hrun
  · rename_i f' m₁ hfault
    cases hrun
    exact hx m f m' hm hfault

theorem push (v : Value) : (Machine.push v).Covers before := ofEffect (Effect.Draws.push v).covers

theorem takeUntil (delimiter : Char) {missing : Fault} (hmissing : missing.isShape = false) :
    (Machine.takeUntil delimiter missing).Covers before := by
  intro m f m' _ hrun
  unfold Machine.takeUntil at hrun
  split at hrun
  · cases hrun
  · cases hrun
    exact hmissing

theorem throw {f : Fault} (hf : f.isShape = false) : (MonadExcept.throw f : MachineM α).Covers before := by
  intro m f' m' _ hrun
  cases hrun
  exact hf

/-- a step that does not fail -/
theorem total {x : MachineM α} (hx : ∀ m, ∃ a m', x m = .ok a m') : x.Covers before := by
  intro m f m' _ hrun
  obtain ⟨a, m₁, hok⟩ := hx m
  rw [hok] at hrun
  cases hrun

end MachineM.Covers

/-! ## Actions -/

def CoreWord.demand : CoreWord → Validator
  | .trace => .ofKinds [.boolean]
  | _ => .depth 0

def RandomWord.demand : RandomWord → Validator
  | .seed => .ofKinds [.integer]
  | _ => .depth 0

/-- the shape that an action draws on; bodies and scripts have none that is known beforehand -/
def Action.demand : Action → Validator
  | .core w => w.demand
  | .operator o => o.demand
  | .random w => w.demand
  | .showStack | .compiled | .script _ => .depth 0

theorem CoreWord.run_covers (w : CoreWord) : w.run.Covers w.demand := by
  cases w with
  | define | loop => exact .total fun _ => ⟨_, _, rfl⟩
  | comment => exact .bind (.takeUntil _ rfl) fun _ => .total fun _ => ⟨_, _, rfl⟩
  | string => exact .bind (.takeUntil _ rfl) fun _ => .push _
  | trace => exact .bind (.ofEffect Effect.Draws.popBoolean.covers) fun _ => .total fun _ => ⟨_, _, rfl⟩
  | boolean b => exact .push _
  | strayEnd | strayNext => exact .throw rfl

theorem RandomWord.run_covers (w : RandomWord) : (w.run (.extension .generator)).Covers w.demand := by
  cases w with
  | integer | unit => exact .bind (.total fun _ => ⟨_, _, rfl⟩) fun _ => .push _
  | seed => exact .bind (.ofEffect Effect.Draws.popInteger.covers) fun _ => .total fun _ => ⟨_, _, rfl⟩

theorem Definition.run_covers {x : Definition} (hx : x.isNative = true) (answer : Answer) :
    (x.run answer).Covers x.action.demand := by
  obtain ⟨validator, action, context⟩ := x
  cases action with
  | core w => exact w.run_covers
  | operator o => exact .ofEffect o.run_covers
  | random w =>
    obtain rfl := Definition.context_of_isNative hx
    exact w.run_covers
  | showStack => exact .total fun _ => ⟨_, _, rfl⟩
  | compiled | script steps => simp [Definition.isNative] at hx

/-! ## Definitions of a session -/

theorem natives_meet_demand : ∀ e ∈ natives, e.2.validator.implies e.2.action.demand = true := by decide +kernel

theorem Dictionary.Built.mem_definitions {natives : List Named} {d : Dictionary} (h : d.Built natives) {name : String}
    {x : Definition} (hx : (name, x) ∈ natives) : x ∈ d.definitions name := by
  rw [h.definitions_eq]
  exact List.mem_append_left _ (Dictionary.mem_nativesOf.2 hx)

/-- Every native definition is in the dictionary of every session. Where its validator accepts the stack of a machine,
whatever else the machine holds, its action does not fail over missing items, items of another kind, a count out of
range or a missing generator. -/
theorem validator_covers_action {name : String} {x : Definition} (hx : (name, x) ∈ natives) :
    (∀ session, Reachable session → x ∈ session.dictionary.definitions name) ∧
      ∀ (answer : Answer) (m : Machine), x.validator.accepts m.stack = true →
        ∀ f m', x.run answer m = .error f m' →
          (∀ needed depth, f ≠ .stack (.underflow needed depth)) ∧
            (∀ expected found, f ≠ .stack (.typeMismatch expected found)) ∧
            (∀ n, f ≠ .badCount n) ∧ f ≠ .noGenerator := by
  refine ⟨fun session hsession => hsession.built.mem_definitions hx, fun answer m haccepts f m' hrun => ?_⟩
  have hmet := Validator.accepts_of_implies (natives_meet_demand _ hx) haccepts
  have hshape := Definition.run_covers (isNative_of_mem_natives _ hx) answer m f m' hmet hrun
  refine ⟨?_, ?_, ?_, ?_⟩
  · rintro needed depth rfl
    cases hshape
  · rintro expected found rfl
    cases hshape
  · rintro n rfl
    cases hshape
  · rintro rfl
    cases hshape

/-- a count of zero is accepted, and picking no item fails over the position only -/
theorem validator_covers_action_pick :
    ∃ (x : Definition) (m : Machine), ("PICK", x) ∈ natives ∧ x.validator.accepts m.stack = true ∧
      x.run (answerUpTo 0) m = .error (.stack .zeroIndex) m ∧
      (∀ needed depth, Fault.stack .zeroIndex ≠ .stack (.underflow needed depth)) ∧
      (∀ expected found, Fault.stack .zeroIndex ≠ .stack (.typeMismatch expected found)) ∧
      (∀ n, Fault.stack .zeroIndex ≠ .badCount n) ∧ Fault.stack .zeroIndex ≠ .noGenerator := by
  have hpick : ("PICK", ⟨.countOnTop, .operator (.counted .pick), .none⟩) ∈ natives :=
    List.mem_of_getElem? (i := 26) rfl
  have hcovered := (validator_covers_action hpick).2 (answerUpTo 0) { stack := ⟨[.integer 0], none⟩ } rfl _ _ rfl
  exact ⟨_, { stack := ⟨[.integer 0], none⟩ }, hpick, rfl, rfl, hcovered⟩

end ReversePolish
