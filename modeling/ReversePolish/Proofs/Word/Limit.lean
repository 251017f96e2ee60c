/-
Words on stacks that differ in their limits, or in what lies below.

`Raised` relates a stack to one with the same items on top of others and as much room, with the limits of the two fixed;
`Looser` relates it to one with the same items and no lower limit. A step is portable if on a raised stack it does the
same to the items on top, unless it runs into the limit of its stack or into the bottom. Results:
- `Stack.onFront_portable`: the operations on a top part of the stack are portable;
- `Effect.Portable.bind`, `CountedWord.orGiveBack_portable`: steps of words are portable if their parts are;
- `Effect.Portable.scales`: under a looser limit a portable step does the same, unless it overflows under the tighter.
-/
import ReversePolish.Machine.Run
import ReversePolish.Proofs.Machine.Outcome
import ReversePolish.Proofs.Stack.Front

namespace ReversePolish

/-! ## Raised stacks -/

/-- the same items under a higher limit or the same, or under none -/
structure Stack.Looser (s t : Stack) : Prop where
  items : t.items = s.items
  limit : ∀ l', t.limit = some l' → ∃ l, s.limit = some l ∧ l ≤ l'

theorem Stack.Looser.depth {s t : Stack} (h : s.Looser t) : t.depth = s.depth := congrArg List.length h.items

/-- the items that a stack is put on top of, and its limit before and after, which leave as much room -/
structure Stack.Lift where
  below : List Value
  limit : Option Nat
  lifted : Option Nat
  room : ∀ l', lifted = some l' → ∃ l, limit = some l ∧ l + below.length ≤ l'

/-- the same items on top of others -/
structure Stack.Raised (g : Lift) (s t : Stack) : Prop where
  items : t.items = s.items ++ g.below
  limit : s.limit = g.limit
  lifted : t.limit = g.lifted

/-- a looser limit is a lift by nothing -/
theorem Stack.Looser.lift {s t : Stack} (h : s.Looser t) :
    ∃ g : Lift, g.below = [] ∧ s.Raised g t ∧ ∀ s' t' : Stack, s'.Raised g t' → s'.Looser t' := by
  refine ⟨⟨[], s.limit, t.limit, h.limit⟩, rfl, ⟨h.items.trans (List.append_nil _).symm, rfl, rfl⟩, ?_⟩
  rintro s' t' ⟨hitems, hlimit, hlifted⟩
  refine ⟨hitems.trans (List.append_nil _), ?_⟩
  rw [hlimit, hlifted]
  exact h.limit

theorem Stack.Raised.depth {g : Lift} {s t : Stack} (h : s.Raised g t) : t.depth = s.depth + g.below.length := by
  unfold Stack.depth
  rw [h.items, List.length_append]

/-- does the stack grow over its limit? -/
def StackError.isOverflow : StackError → Bool
  | .overflow _ => true
  | _ => false

/-- does the operation reach below the bottom of the stack? -/
def StackError.isUnderflow : StackError → Bool
  | .underflow _ _ => true
  | _ => false

/-- may the error go away on a stack that is raised by these items? -/
def StackError.IsBound (below : List Value) (e : StackError) : Prop :=
  e.isOverflow = true ∨ below ≠ [] ∧ e.isUnderflow = true

def Fault.isOverflow : Fault → Bool
  | .stack e => e.isOverflow
  | _ => false

def Fault.IsBound (below : List Value) : Fault → Prop
  | .stack e => e.IsBound below
  | _ => False

theorem Fault.isOverflow_of_isBound {f : Fault} (h : f.IsBound []) : f.isOverflow = true := by
  cases f with
  | stack e => exact h.resolve_right fun hbelow => hbelow.1 rfl
  | _ => exact h.elim

/-- the operation does the same on a raised stack, unless it runs into the limit or the bottom -/
def Stack.Portable {α : Type} (x : StackM α) : Prop :=
  ∀ g : Lift, Tolerant (StackError.IsBound g.below) (Raised g) x

def Effect.Portable {α : Type} (x : Effect α) : Prop :=
  ∀ g : Stack.Lift, Tolerant (Fault.IsBound g.below) (Stack.Raised g) x

/-- the operation does the same under a looser limit, unless it overflows -/
abbrev Stack.Scales {α : Type} (x : StackM α) : Prop := Tolerant (·.isOverflow = true) Stack.Looser x

abbrev Effect.Scales {α : Type} (x : Effect α) : Prop := Tolerant (·.isOverflow = true) Stack.Looser x

theorem Effect.Portable.scales {α : Type} {x : Effect α} (hx : x.Portable) : x.Scales := by
  intro s t h
  obtain ⟨g, hbelow, hraised, hlooser⟩ := h.lift
  refine (hx g s t hraised).mono ?_ hlooser
  rw [hbelow]
  exact fun _ => Fault.isOverflow_of_isBound

theorem Stack.Portable.scales {α : Type} {x : StackM α} (hx : Portable x) : Scales x := by
  intro s t h
  obtain ⟨g, hbelow, hraised, hlooser⟩ := h.lift
  refine (hx g s t hraised).mono ?_ hlooser
  rw [hbelow]
  exact fun e he => he.resolve_right fun hne => hne.1 rfl

/-! ## Operations of the stack -/

namespace Stack

theorem Raised.fits {g : Lift} {s t : Stack} (h : s.Raised g t) {n : Nat} (hfits : s.Fits n) : t.Fits n := by
  intro l' hl'
  obtain ⟨l, hl, hle⟩ := g.room l' (h.lifted ▸ hl')
  have := hfits l (h.limit.trans hl)
  rw [h.depth]
  omega

theorem room_portable (n : Nat) : Portable (room n) := by
  intro g s t h
  rcases room_cases s n with ⟨hfits, hs⟩ | ⟨l, -, hs⟩
  · rcases room_cases t n with ⟨-, ht⟩ | ⟨l, ⟨-, hfull⟩, -⟩
    · rw [hs, ht]
      exact .ok () h
    · exact absurd (h.fits hfits) hfull
  · rw [hs]
    exact .cut (.inl rfl)

theorem roomFor_portable (grow : Option Nat) : Portable (roomFor grow) := by
  cases grow with
  | none => exact fun _ => .pure ()
  | some n => exact room_portable n

theorem replaceFront_follows {α : Type} {n : Nat} (grow : Option Nat) (a : α) (items : List Value) {g : Lift}
    {s t : Stack} (h : s.Raised g t) (hdeep : ¬ s.depth < n) :
    Follows (StackError.IsBound g.below) (Raised g) (replaceFront n grow a items s)
      (replaceFront n grow a items t) := by
  have hroom := roomFor_portable grow g s t h
  change Follows _ _ (EStateM.bind (roomFor grow) _ s) (EStateM.bind (roomFor grow) _ t)
  unfold EStateM.bind
  rcases roomFor_cases grow s with hs | ⟨l, hs⟩
  · rcases roomFor_cases grow t with ht | ⟨l, ht⟩
    · rw [hs, ht]
      refine .ok a ⟨?_, h.limit, h.lifted⟩
      change items ++ t.items.drop n = items ++ s.items.drop n ++ g.below
      rw [h.items, List.drop_append_of_le_length (Nat.le_of_not_lt hdeep), List.append_assoc]
    · rw [hs, ht] at hroom
      cases hroom
  · rw [hs]
    exact .cut (.inl rfl)

/-- an operation on a top part does not see what lies below it -/
theorem onFront_portable {α : Type} (n : Nat) (grow : Option Nat)
    (f : List Value → Except StackError (α × List Value)) : Portable (onFront n grow f) := by
  intro g s t h
  by_cases hs : s.depth < n
  · rw [onFront_short hs]
    by_cases hbelow : g.below = []
    · have hdepth : t.depth = s.depth := by rw [h.depth, hbelow]; rfl
      rw [onFront_short (hdepth ▸ hs), hdepth]
      exact .error _ h
    · exact .cut (.inr ⟨hbelow, rfl⟩)
  · have ht : ¬ t.depth < n := by
      rw [h.depth]
      omega
    have hle : n ≤ s.items.length := Nat.le_of_not_lt hs
    have htake : t.items.take n = s.items.take n := by rw [h.items, List.take_append_of_le_length hle]
    cases hf : f (s.items.take n) with
    | error e =>
      rw [onFront_refused hs hf, onFront_refused ht (htake ▸ hf)]
      exact .error e h
    | ok p =>
      rw [onFront_done hs hf, onFront_done ht (htake ▸ hf)]
      exact replaceFront_follows grow p.1 p.2 h hs

theorem push_portable (v : Value) : Portable (push v) := push_eq v ▸ onFront_portable _ _ _

theorem pop_portable : Portable pop := pop_eq ▸ onFront_portable _ _ _

theorem popWith_portable {α : Type} (kind : Kind) (view : Value → Option α) : Portable (popWith kind view) :=
  popWith_eq kind view ▸ onFront_portable _ _ _

theorem peek_portable (n : Nat) : Portable (peek n) := peek_eq n ▸ onFront_portable _ _ _

theorem dropN_portable (n : Nat) : Portable (dropN n) := dropN_eq n ▸ onFront_portable _ _ _

theorem push_scales (v : Value) : Scales (push v) := (push_portable v).scales

theorem popWith_scales {α : Type} (kind : Kind) (view : Value → Option α) : Scales (popWith kind view) :=
  (popWith_portable kind view).scales

theorem modifyItems_scales (f : List Value → List Value) : Scales (modifyItems f) := by
  intro s t h
  exact .ok () ⟨congrArg f h.items, h.limit⟩

/-- an operation that takes the depth of the stack as its count -/
theorem atDepth_scales {x : Nat → StackM Unit} (hx : ∀ n, Scales (x n)) : Scales (do x (← get).depth) :=
  .reads (fun s t h => by rw [h.depth]) fun s => hx s.depth

/-- pushing fails over the limit only -/
theorem push_error {v : Value} {s s' : Stack} {e : StackError} (h : push v s = .error e s') : e.isOverflow = true := by
  rcases push_cases v s with ⟨-, hpush⟩ | ⟨l, -, hpush⟩
  · cases hpush.symm.trans h
  · cases hpush.symm.trans h
    rfl

end Stack

/-! ## Effects of words -/

namespace Effect

variable {α β : Type}

theorem ofStack_scales {x : StackM α} (hx : Stack.Scales x) : Scales (ofStack x) := by
  intro s t h
  have hrun := hx s t h
  unfold ofStack
  generalize x s = r at hrun ⊢
  generalize x t = r' at hrun ⊢
  cases hrun with
  | ok a h => exact .ok a h
  | error h =>
    obtain ⟨rfl, h⟩ := h
    exact .error (Fault.stack _) h
  | cut h => exact .cut h

namespace Portable

theorem pure (a : α) : Portable (Pure.pure a) := fun _ => .pure a

theorem throw (f : Fault) : Portable (MonadExcept.throw f : Effect α) := fun _ => .throw f

theorem bind {x : Effect α} {f : α → Effect β} (hx : Portable x) (hf : ∀ a, Portable (f a)) : Portable (x >>= f) :=
  fun g => .bind (hx g) fun a => hf a g

theorem ofStack {x : StackM α} (hx : Stack.Portable x) : Portable (Effect.ofStack x) := by
  intro g s t h
  have hrun := hx g s t h
  unfold Effect.ofStack
  generalize x s = r at hrun ⊢
  generalize x t = r' at hrun ⊢
  cases hrun with
  | ok a h => exact .ok a h
  | error h =>
    obtain ⟨rfl, h⟩ := h
    exact .error (Fault.stack _) h
  | cut h => exact .cut h

end Portable

end Effect

/-- an error at the bounds stays one when the count is given back, or when there is no room for it -/
theorem CountedWord.orGiveBack_portable (n : Int64) {x : StackM Unit} (hx : Stack.Portable x) :
    (orGiveBack n x).Portable := by
  intro g s t h
  have hrun := hx g s t h
  unfold orGiveBack
  generalize x s = r at hrun ⊢
  generalize x t = r' at hrun ⊢
  cases hrun with
  | ok a h => exact .ok () h
  | @error e _ s t h =>
    obtain ⟨rfl, h⟩ := h
    have hback := Stack.push_portable (.integer n) g s t h
    dsimp only
    generalize Stack.push (.integer n) s = r at hback ⊢
    generalize Stack.push (.integer n) t = r' at hback ⊢
    cases hback with
    | ok a h => exact .error _ h
    | error h =>
      obtain ⟨rfl, h⟩ := h
      exact .error _ h
    | cut h => exact .cut h
  | @cut e s r h =>
    dsimp only
    split
    · exact .cut h
    · rename_i hback
      exact .cut (.inl (Stack.push_error hback))

theorem popBounds_scales : popBounds.Scales := by
  have hpeek (n : Nat) : (liftM (Stack.peek n) : Effect Value).Scales :=
    (Effect.Portable.ofStack (Stack.peek_portable n)).scales
  refine .reads (fun s t h => by simp only [h.depth]) fun s => ?_
  split
  · exact .throwThen _ _
  · refine .bind (hpeek 1) fun stop => .bind (hpeek 2) fun start => ?_
    dsimp only
    split
    · exact .throwThen _ _
    · split
      · exact .throwThen _ _
      · exact .bind (Effect.Portable.ofStack (Stack.dropN_portable 2)).scales fun _ => .pure _

end ReversePolish
