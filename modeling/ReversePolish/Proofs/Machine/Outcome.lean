/-
How a run ends, and how two runs end side by side.

`Outcomes` compares the results of two runs: both succeed with the same value in states that are related, both fail, or
the first one is cut short by a fault that the second need not meet. `Follows` is the case in which two failing runs
fail alike. Results:
- `Outcomes.bind`: runs that are compared step by step;
- `Outcomes.mapState`: runs in changed states, such as those of a body that has scopes of its own;
- `same_iff`: the case in which both runs are the same, and something is said of how they end;
- `Tolerant.bind`: steps that do the same on related states.
-/
import ReversePolish.Machine.State

namespace EStateM.Result

variable {ε σ α : Type}

/-- the state that a step ends with, whether it fails or not -/
def state : Result ε σ α → σ
  | .ok _ s => s
  | .error _ s => s

@[simp] theorem state_ok (a : α) (s : σ) : (Result.ok a s : Result ε σ α).state = s := rfl

@[simp] theorem state_error (e : ε) (s : σ) : (Result.error e s : Result ε σ α).state = s := rfl

/-- the error that a step ends with, if it fails -/
def error? : Result ε σ α → Option ε
  | .ok _ _ => none
  | .error e _ => some e

theorem error?_eq_some {r : Result ε σ α} {e : ε} (h : r.error? = some e) : ∃ s, r = .error e s := by
  cases r with
  | ok a s => cases h
  | error e' s =>
    cases h
    exact ⟨s, rfl⟩

@[simp] theorem mapState_ok (f : Option ε → σ → σ) (a : α) (s : σ) :
    (Result.ok a s : Result ε σ α).mapState f = .ok a (f none s) := rfl

@[simp] theorem mapState_error (f : Option ε → σ → σ) (e : ε) (s : σ) :
    (Result.error e s : Result ε σ α).mapState f = .error e (f (some e) s) := rfl

theorem state_mapState (f : Option ε → σ → σ) (r : Result ε σ α) : (r.mapState f).state = f r.error? r.state := by
  cases r <;> rfl

theorem error?_mapState (f : Option ε → σ → σ) (r : Result ε σ α) : (r.mapState f).error? = r.error? := by
  cases r <;> rfl

end EStateM.Result

namespace ReversePolish

variable {ε σ α β : Type}

/-! ## Two runs -/

/-- both runs succeed in related states, both fail, or the first is cut short -/
inductive Outcomes (R : σ → σ → Prop) (F : ε → σ → ε → σ → Prop) (cut : ε → Prop) :
    EStateM.Result ε σ α → EStateM.Result ε σ α → Prop
  | ok (a : α) {s t : σ} (h : R s t) : Outcomes R F cut (.ok a s) (.ok a t)
  | error {e e' : ε} {s t : σ} (h : F e s e' t) : Outcomes R F cut (.error e s) (.error e' t)
  | cut {e : ε} {s : σ} {r : EStateM.Result ε σ α} (h : cut e) : Outcomes R F cut (.error e s) r

namespace Outcomes

variable {R R' : σ → σ → Prop} {F F' : ε → σ → ε → σ → Prop} {cut cut' : ε → Prop}

theorem bind {x y : EStateM ε σ α} {f g : α → EStateM ε σ β} {s t : σ} (h : Outcomes R F cut (x s) (y t))
    (hfg : ∀ a s' t', R s' t' → Outcomes R' F cut (f a s') (g a t')) :
    Outcomes R' F cut ((x >>= f) s) ((y >>= g) t) := by
  change Outcomes R' F cut (EStateM.bind x f s) (EStateM.bind y g t)
  unfold EStateM.bind
  generalize x s = r at h ⊢
  generalize y t = r' at h ⊢
  cases h with
  | ok a h => exact hfg a _ _ h
  | error h => exact .error h
  | cut h => exact .cut h

/-- the results in changed states -/
theorem mapState {f g : Option ε → σ → σ} {r r' : EStateM.Result ε σ α} (h : Outcomes R F cut r r')
    (hR : ∀ s t, R s t → R' (f none s) (g none t))
    (hF : ∀ e s e' t, F e s e' t → F' e (f (some e) s) e' (g (some e') t) ∨ cut' e)
    (hcut : ∀ e, cut e → cut' e) : Outcomes R' F' cut' (r.mapState f) (r'.mapState g) := by
  cases h with
  | ok a h => exact .ok a (hR _ _ h)
  | error h =>
    rcases hF _ _ _ _ h with h | h
    · exact .error h
    · exact .cut h
  | cut h => exact .cut (hcut _ h)

theorem imp {r r' : EStateM.Result ε σ α} (h : Outcomes R F cut r r') (hR : ∀ s t, R s t → R' s t)
    (hF : ∀ e s e' t, F e s e' t → F' e s e' t) (hcut : ∀ e, cut e → cut' e) : Outcomes R' F' cut' r r' := by
  cases h with
  | ok a h => exact .ok a (hR _ _ h)
  | error h => exact .error (hF _ _ _ _ h)
  | cut h => exact .cut (hcut _ h)

end Outcomes

/-! ## One run, twice -/

/-- both runs are the same, and end in states and with errors of a kind -/
abbrev Same (P : σ → Prop) (Q : ε → σ → Prop) (r r' : EStateM.Result ε σ α) : Prop :=
  Outcomes (fun s t => t = s ∧ P s) (fun e s e' t => e' = e ∧ t = s ∧ Q e s) (fun _ => False) r r'

theorem same_iff {P : σ → Prop} {Q : ε → σ → Prop} {r r' : EStateM.Result ε σ α} :
    Same P Q r r' ↔ r' = r ∧ (r.error? = none → P r.state) ∧ ∀ e, r.error? = some e → Q e r.state := by
  constructor
  · intro h
    cases h with
    | ok a h =>
      obtain ⟨rfl, hP⟩ := h
      exact ⟨rfl, fun _ => hP, fun e he => by cases he⟩
    | error h =>
      obtain ⟨rfl, rfl, hQ⟩ := h
      refine ⟨rfl, fun he => (by cases he), fun e he => ?_⟩
      cases he
      exact hQ
    | cut h => exact h.elim
  · rintro ⟨rfl, hP, hQ⟩
    cases r' with
    | ok a s => exact .ok a ⟨rfl, hP rfl⟩
    | error e s => exact .error ⟨rfl, rfl, hQ e rfl⟩

/-! ## Runs that end alike -/

/-- the second run ends like the first, in related states, unless the first is cut short -/
abbrev Follows (cut : ε → Prop) (R : σ → σ → Prop) (r r' : EStateM.Result ε σ α) : Prop :=
  Outcomes R (fun e s e' t => e' = e ∧ R s t) cut r r'

theorem Follows.error {cut : ε → Prop} {R : σ → σ → Prop} (e : ε) {s t : σ} (h : R s t) :
    Follows cut R (.error e s : EStateM.Result ε σ α) (.error e t) :=
  Outcomes.error ⟨rfl, h⟩

theorem Follows.mono {cut cut' : ε → Prop} {R S : σ → σ → Prop} {r r' : EStateM.Result ε σ α}
    (h : Follows cut R r r') (hcut : ∀ e, cut e → cut' e) (hR : ∀ s t, R s t → S s t) : Follows cut' S r r' :=
  h.imp hR (fun _ _ _ _ => And.imp_right (hR _ _)) hcut

/-- a step that does the same on related states, unless it is cut short -/
def Tolerant (cut : ε → Prop) (R : σ → σ → Prop) (x : EStateM ε σ α) : Prop :=
  ∀ s t, R s t → Follows cut R (x s) (x t)

namespace Tolerant

variable {cut : ε → Prop} {R : σ → σ → Prop}

theorem pure (a : α) : Tolerant cut R (Pure.pure a : EStateM ε σ α) := fun _ _ h => .ok a h

theorem throw (e : ε) : Tolerant cut R (MonadExcept.throw e : EStateM ε σ α) := fun _ _ h => .error e h

theorem bind {x : EStateM ε σ α} {f : α → EStateM ε σ β} (hx : Tolerant cut R x) (hf : ∀ a, Tolerant cut R (f a)) :
    Tolerant cut R (x >>= f) := fun s t h => (hx s t h).bind fun a s' t' h' => hf a s' t' h'

/-- nothing runs after a fault -/
theorem throwThen (e : ε) (f : α → EStateM ε σ β) : Tolerant cut R (MonadExcept.throw e >>= f) :=
  fun _ _ h => .error e h

/-- a step that looks at the state, where related states look alike -/
theorem reads {f : σ → EStateM ε σ β} (hsame : ∀ s t, R s t → f s = f t) (hf : ∀ s, Tolerant cut R (f s)) :
    Tolerant cut R (get >>= f) := by
  intro s t h
  change Follows cut R (f s s) (f t t)
  rw [← hsame s t h]
  exact hf s s t h

end Tolerant

end ReversePolish
