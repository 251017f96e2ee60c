/-
The faults of words that act on the data stack.

A step blames its operands if it fails over them only: an operation of the stack fails, no definition accepts the
operands, or a count or a frame rate is out of range. Steps that are put together of such steps are of this kind.
-/
import ReversePolish.Word.Operator

namespace ReversePolish

/-- is the fault about operands? -/
def Fault.isOperand : Fault → Bool
  | .stack _ | .noMatch _ | .badCount _ | .badRate _ => true
  | _ => false

/-- a count that is not negative is taken -/
theorem Effect.popCount_ok {n : Int64} (hn : ¬ n < 0) (below : List Value) (limit : Option Nat) :
    Effect.popCount ⟨.integer n :: below, limit⟩ = .ok (n, n.toInt.toNat) ⟨below, limit⟩ := by
  change (if n < 0 then _ else _ : Effect (Int64 × Nat)) _ = _
  rw [if_neg hn]
  rfl

/-- the effect fails over operands only -/
def Effect.Blames {α : Type} (x : Effect α) : Prop := ∀ s f s', x s = .error f s' → f.isOperand = true

namespace Effect.Blames

variable {α β : Type}

theorem pure (a : α) : Blames (Pure.pure a : Effect α) := by
  intro s f s' h
  cases h

theorem throw {f : Fault} (hf : f.isOperand = true) : Blames (MonadExcept.throw f : Effect α) := by
  intro s f' s' h
  cases h
  exact hf

/-- nothing runs after a fault -/
theorem throwThen {f : Fault} (hf : f.isOperand = true) (g : α → Effect β) : Blames (MonadExcept.throw f >>= g) := by
  intro s f' s' h
  cases h
  exact hf

theorem get : Blames (MonadState.get : Effect Stack) := by
  intro s f s' h
  cases h

theorem bind {x : Effect α} {g : α → Effect β} (hx : Blames x) (hg : ∀ a, Blames (g a)) : Blames (x >>= g) := by
  intro s f s' h
  change EStateM.bind x g s = _ at h
  unfold EStateM.bind at h
  split at h
  · rename_i a s₁ _
    exact hg a s₁ f s' h
  · rename_i f' s₁ hr
    cases h
    exact hx s f s' hr

theorem ofStack (x : StackM α) : Blames (Effect.ofStack x) := by
  intro s f s' h
  unfold Effect.ofStack at h
  split at h
  · cases h
  · cases h
    rfl

theorem lift (x : StackM α) : Blames (liftM x : Effect α) := ofStack x

end Effect.Blames

theorem CountedWord.orGiveBack_blames (n : Int64) (operation : StackM Unit) : (orGiveBack n operation).Blames := by
  intro s f s' h
  unfold CountedWord.orGiveBack at h
  split at h
  · cases h
  · split at h
    · cases h
      rfl
    · cases h
      rfl

end ReversePolish
