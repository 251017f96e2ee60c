/-
Native words that fail leave the data stack as it was.

A word takes its operands before it puts a result in their place. It cannot fail in between: its validator has accepted
the operands, and every item taken from a stack within its limit makes room for one. `Delivers` says so for words that
take at least as many items as they give. The words that give more are single operations of the stack, which are guarded
(`Stack.Guarded`); a counted word gives its count back; and a comparison looks at its operands first. Results:
- `Operator.run_restores`, `Definition.run_restores`: on a stack that has the operands, a native definition that fails
  leaves the stack as it was;
- `failing_word_keeps_stack`: so does a word, whatever it fails over.
Left out are the words that take a value apart, which may give more than they take, and `->TC`, which finds out about
its rate when the operands are gone (`Operator.spends`).
-/
import ReversePolish.Proofs.Stack.Bounded
import ReversePolish.Proofs.Timecode
import ReversePolish.Proofs.Word.Cover

namespace ReversePolish

/-! ## Stacks with operands and room -/

/-- Every timecode on the stack is at a rate that is accepted. Timecodes are made at such rates only
(`Timecode.rated_of_ofFrames`, `Timecode.rated_of_ofFields`), and the rate of a timecode does not change. -/
def Stack.Rated (s : Stack) : Prop := ∀ t, .timecode t ∈ s.items → t.Rated

/-- a stack that the validator accepts, with room for n more items -/
structure Stack.Supplied (before : Validator) (n : Nat) (s : Stack) : Prop where
  accepted : before.accepts s = true
  room : s.Fits n
  rated : s.Rated

/-- on every stack with the first property the step succeeds, and leaves a stack with the second -/
def Effect.Delivers {α : Type} (P : Stack → Prop) (x : Effect α) (Q : α → Stack → Prop) : Prop :=
  ∀ s, P s → ∃ a s', x s = .ok a s' ∧ Q a s'

/-- an operation that takes the top item, or fails over the shape of the stack -/
def Stack.TakesTop {α : Type} (x : StackM α) : Prop :=
  ∀ s, (∃ a v rest, s.items = v :: rest ∧ x s = .ok a { s with items := rest }) ∨
    ∃ e s', x s = .error e s' ∧ e.isShape = true

namespace Stack

variable {α : Type}

theorem popWith_takesTop (kind : Kind) (view : Value → Option α) : TakesTop (popWith kind view) := by
  rintro ⟨items, limit⟩
  rcases items with _ | ⟨v, rest⟩
  · exact .inr ⟨_, _, rfl, rfl⟩
  · change (∃ a w rest', _ ∧ EStateM.bind (viewed kind view v) _ _ = _) ∨
      ∃ e s', EStateM.bind (viewed kind view v) _ _ = _ ∧ _
    unfold EStateM.bind viewed
    rcases view v with _ | a
    · exact .inr ⟨_, _, rfl, rfl⟩
    · exact .inl ⟨a, v, rest, rfl, rfl⟩

theorem popThen_takesTop (f : Value → α) : TakesTop (do return f (← pop)) := by
  rintro ⟨items, limit⟩
  rcases items with _ | ⟨v, rest⟩
  · exact .inr ⟨_, _, rfl, rfl⟩
  · exact .inl ⟨f v, v, rest, rfl, rfl⟩

/-- taking an item makes room for one -/
theorem Fits.tail {s : Stack} {n : Nat} (h : s.Fits n) {v : Value} {rest : List Value} (hs : s.items = v :: rest) :
    Fits { s with items := rest } (n + 1) := by
  intro l hl
  have hle := h l hl
  rw [depth, hs, List.length_cons] at hle
  change rest.length + (n + 1) ≤ l
  omega

theorem Rated.tail {s : Stack} (h : s.Rated) {v : Value} {rest : List Value} (hs : s.items = v :: rest) :
    Rated { s with items := rest } := by
  intro t ht
  refine h t ?_
  rw [hs]
  exact List.mem_cons_of_mem v ht

end Stack

namespace Effect.Delivers

open Stack (Supplied)

variable {α β : Type} {P P' : Stack → Prop} {Q Q' : α → Stack → Prop} {before : Validator} {slot slot' : Slot}
  {slots : List Slot} {n k : Nat}

theorem conseq {x : Effect α} (h : Delivers P x Q) (hP : ∀ s, P' s → P s) (hQ : ∀ a s, Q a s → Q' a s) :
    Delivers P' x Q' := by
  intro s hs
  obtain ⟨a, s', hx, hs'⟩ := h s (hP s hs)
  exact ⟨a, s', hx, hQ a s' hs'⟩

theorem bind {x : Effect α} {f : α → Effect β} {R : β → Stack → Prop} (hx : Delivers P x Q)
    (hf : ∀ a, Delivers (Q a) (f a) R) : Delivers P (x >>= f) R := by
  intro s hs
  obtain ⟨a, s₁, hx, hs₁⟩ := hx s hs
  obtain ⟨b, s₂, hf, hs₂⟩ := hf a s₁ hs₁
  refine ⟨b, s₂, ?_, hs₂⟩
  change EStateM.bind x f s = _
  rw [EStateM.bind, hx]
  exact hf

/-- what is known about the result of a step before -/
theorem given {p : Prop} {x : Effect α} (h : p → Delivers P x Q) : Delivers (fun s => p ∧ P s) x Q :=
  fun s hs => h hs.1 s hs.2

theorem pure (a : α) : Delivers P (Pure.pure a) fun _ => P := fun s hs => ⟨a, s, rfl, hs⟩

/-- an operation that is covered by the slot on top takes the item there -/
theorem takeTop {x : StackM α} (htakes : Stack.TakesTop x)
    (hdraws : Draws (.kinds (slot :: slots)) (liftM x) fun _ => .kinds slots) :
    Delivers (Supplied (.kinds (slot :: slots)) n) (liftM x) fun _ => Supplied (.kinds slots) (n + 1) := by
  intro s hs
  have hcovered := hdraws.covers s hs.accepted
  change Covered _ _ (Effect.ofStack x s) at hcovered
  change ∃ a s', Effect.ofStack x s = .ok a s' ∧ _
  unfold Effect.ofStack at hcovered ⊢
  rcases htakes s with ⟨a, v, rest, hitems, hx⟩ | ⟨e, s', hx, hshape⟩
  · rw [hx] at hcovered ⊢
    refine ⟨a, _, rfl, ?_, hs.room.tail hitems, hs.rated.tail hitems⟩
    cases hcovered with
    | ok h => exact h
  · rw [hx] at hcovered
    cases hcovered with
    | error h => cases hshape.symm.trans h

theorem popWith {kind : Kind} {view : Value → Option α}
    (h : Draws (.kinds (slot :: slots)) (liftM (Stack.popWith kind view)) fun _ => .kinds slots) :
    Delivers (Supplied (.kinds (slot :: slots)) n) (liftM (Stack.popWith kind view)) fun _ =>
      Supplied (.kinds slots) (n + 1) :=
  takeTop (Stack.popWith_takesTop kind view) h

theorem pop :
    Delivers (Supplied (.kinds (slot :: slots)) n) (liftM Stack.pop) fun _ => Supplied (.kinds slots) (n + 1) := by
  refine takeTop ?_ .pop
  rw [← bind_pure Stack.pop]
  exact Stack.popThen_takesTop id

theorem popAsDouble :
    Delivers (Supplied (.kinds (slot :: slots)) n) (liftM Stack.popAsDouble) fun _ => Supplied (.kinds slots) (n + 1) :=
  takeTop (Stack.popThen_takesTop _) .popAsDouble

theorem popPair :
    Delivers (Supplied (.kinds (slot :: slot' :: slots)) n) Effect.popPair fun _ =>
      Supplied (.kinds slots) (n + 1 + 1) :=
  .bind pop fun _ => .bind pop fun _ => .pure _

/-- a timecode is at a rate that is accepted -/
theorem popTimecode :
    Delivers (Supplied (.kinds (.kind .timecode :: slots)) n) (liftM Stack.popTimecode) fun t s =>
      t.Rated ∧ Supplied (.kinds slots) (n + 1) s := by
  intro s hs
  obtain ⟨t, s', hx, hs'⟩ := popWith Draws.popTimecode s hs
  refine ⟨t, s', hx, hs.rated t ?_, hs'⟩
  obtain ⟨items, limit⟩ := s
  rcases items with _ | ⟨v, rest⟩
  · cases hx
  · cases v <;> cases hx
    exact List.mem_cons_self

/-- an accepted count leaves as many items as it says -/
theorem popCount : Delivers (Supplied .countOnTop n) Effect.popCount fun p => Supplied (.depth p.2) (n + 1) := by
  intro s hs
  obtain ⟨c, below, hitems, hle, hrun⟩ := popCount_accepted hs.accepted
  exact ⟨_, _, hrun, decide_eq_true hle, hs.room.tail hitems, hs.rated.tail hitems⟩

/-- taking some items makes room for as many -/
theorem takeAll {x : StackM α} {g : List Value → α} (hx : x = Stack.onFront k none fun items => .ok (g items, [])) :
    Delivers (Supplied (.depth k) n) (liftM x) fun _ s => s.Fits (k + n) := by
  intro s hs
  have hdeep : k ≤ s.depth := of_decide_eq_true hs.accepted
  have hrun : x s = .ok (g (s.items.take k)) { s with items := s.items.drop k } := by
    rw [hx, Stack.onFront_done (Nat.not_lt.2 hdeep) rfl]
    rfl
  refine ⟨g (s.items.take k), { s with items := s.items.drop k }, ?_, fun l hl => ?_⟩
  · change Effect.ofStack x s = _
    rw [Effect.ofStack, hrun]
  · have hle := hs.room l hl
    unfold Stack.depth at hdeep hle ⊢
    rw [List.length_drop]
    omega

theorem push (v : Value) : Delivers (fun s => s.Fits (n + 1)) (liftM (Stack.push v)) fun _ s => s.Fits n := by
  intro s hs
  have hroom : s.Fits 1 := by
    intro l hl
    have hle := hs l hl
    omega
  rcases Stack.push_cases v s with ⟨-, hpush⟩ | ⟨l, ⟨-, hfull⟩, -⟩
  · refine ⟨(), { s with items := v :: s.items }, ?_, fun l hl => ?_⟩
    · change Effect.ofStack (Stack.push v) s = _
      rw [Effect.ofStack, hpush]
    · have hle := hs l hl
      change s.items.length + 1 + n ≤ l
      unfold Stack.depth at hle
      omega
  · exact absurd hroom hfull

/-- gives a result where an operand was taken -/
theorem give (v : Value) : Delivers (Supplied before (n + 1)) (liftM (Stack.push v)) fun _ s => s.Fits n :=
  (push v).conseq (fun _ h => h.room) fun _ _ h => h

end Effect.Delivers

/-! ## Steps that fail with the stack as it was -/

/-- on every stack with the property, the step leaves the stack as it was if it fails -/
def Effect.Restores {α : Type} (P : Stack → Prop) (x : Effect α) : Prop :=
  ∀ s, P s → ∀ f s', x s = .error f s' → s' = s

namespace Effect.Restores

variable {α β : Type} {P : Stack → Prop}

theorem throw (f : Fault) : Restores P (MonadExcept.throw f : Effect α) := by
  intro s _ f' s' h
  cases h
  rfl

theorem ofGuarded {x : StackM α} (hx : Stack.Guarded x) : Restores P (Effect.ofStack x) := by
  intro s _ f s' h
  have hs := hx s
  unfold Effect.ofStack at h
  rcases hrun : x s with ⟨a, t⟩ | ⟨e, t⟩
  · rw [hrun] at h
    cases h
  · rw [hrun] at h hs
    cases h
    exact hs

/-- a step that looks at the stack first -/
theorem look {x : Effect α} {g : α → Effect β} (hx : ∀ s, P s → ∃ a, x s = .ok a s) (hg : ∀ a, Restores P (g a)) :
    Restores P (x >>= g) := by
  intro s hs f s' h
  obtain ⟨a, hlook⟩ := hx s hs
  change EStateM.bind x g s = _ at h
  rw [EStateM.bind, hlook] at h
  exact hg a s hs f s' h

end Effect.Restores

theorem Effect.Delivers.restores {α : Type} {P : Stack → Prop} {x : Effect α} {Q : α → Stack → Prop}
    (h : Effect.Delivers P x Q) : Effect.Restores P x := by
  intro s hs f s' herror
  obtain ⟨a, s₁, hok, -⟩ := h s hs
  cases hok.symm.trans herror

/-! ## Words -/

open Effect
open Stack (Supplied Guarded)

theorem StackWord.operation_guarded (w : StackWord) : Guarded w.operation := by
  cases w with
  | drop => exact Guarded.pop.andThen _
  | clear => exact .clear
  | depth => exact .atDepth fun n => .push (count n)
  | swap => exact .rearrange fun _ => List.length_reverse
  | rollUp => exact .atDepth .rollUpN
  | rollDown => exact .atDepth .rollDownN
  | copySecond => exact .pick 2
  | dup => exact .pick 1
  | rotateUp => exact .rollUpN 3
  | rotateDown => exact .rollDownN 3
  | reverse => exact .reverse

theorem CountedWord.operation_guarded (w : CountedWord) (n : Nat) : Guarded (w.operation n) := by
  cases w with
  | dropN => exact .dropN n
  | dupN => exact .dupN n
  | nipN => exact (Guarded.nipN n).andThen _
  | pick => exact .pick n
  | rollDownN => exact .rollDownN n
  | rollUpN => exact .rollUpN n
  | tuckN => exact .tuckN n
  | reverseN => exact .rearrange fun _ => List.length_reverse

/-- the count had its place on the stack, so there is room to give it back -/
theorem CountedWord.run_restores (w : CountedWord) : Restores (Supplied .countOnTop 0) w.run := by
  rintro ⟨items, limit⟩ hs f s' hrun
  obtain ⟨c, below, hitems, -, hcount⟩ := popCount_accepted hs.accepted
  obtain rfl : items = .integer c :: below := hitems
  have hguarded := w.operation_guarded c.toInt.toNat ⟨below, limit⟩
  change EStateM.bind popCount _ _ = _ at hrun
  rw [EStateM.bind, hcount] at hrun
  change orGiveBack c (w.operation c.toInt.toNat) ⟨below, limit⟩ = _ at hrun
  unfold orGiveBack at hrun
  rcases hop : w.operation c.toInt.toNat ⟨below, limit⟩ with ⟨a, t⟩ | ⟨e, t⟩
  · rw [hop] at hrun
    cases hrun
  · rw [hop] at hguarded hrun
    obtain rfl : t = ⟨below, limit⟩ := hguarded
    rcases Stack.push_cases (.integer c) ⟨below, limit⟩ with ⟨-, hback⟩ | ⟨l, ⟨-, hfull⟩, -⟩
    · simp only [hback] at hrun
      cases hrun
      rfl
    · exact absurd (hs.room.tail rfl) hfull

theorem Effect.peek_looks {n k j : Nat} (hn : n ≠ 0) (hle : n ≤ k) (s : Stack) (hs : Supplied (.depth k) j s) :
    ∃ v, (liftM (Stack.peek n) : Effect Value) s = .ok v s := by
  have hdeep : k ≤ s.depth := of_decide_eq_true hs.accepted
  obtain ⟨v, hv, -⟩ := Stack.deepest_take hn (Nat.not_lt.2 (Nat.le_trans hle hdeep))
  refine ⟨v, ?_⟩
  change Effect.ofStack (Stack.peek n) s = _
  rw [Effect.ofStack, Stack.peek_found hn hv]

/-- two values that cannot be ordered have not been taken yet -/
theorem LogicWord.compareTop_restores (test : OrderTest) : Restores (Supplied (.depth 2) 0) (compareTop test) := by
  refine .look (peek_looks (by decide) (by decide)) fun a => .look (peek_looks (by decide) (by decide)) fun b => ?_
  split
  · exact .throw _
  · exact Delivers.restores (.bind (.takeAll (Stack.dropN_eq 2)) fun _ => .push _)

theorem LogicWord.run_restores (w : LogicWord) : Restores (Supplied w.demand 0) w.run := by
  cases w with
  | choose => exact Delivers.restores (.bind (.popWith .popBoolean) fun _ => .bind .popPair fun _ => .give _)
  | equal | different => exact Delivers.restores (.bind .popPair fun _ => .give _)
  | order test => exact compareTop_restores test
  | not => exact Delivers.restores (.bind (.popWith .popBoolean) fun _ => .give _)
  | and | or =>
    exact Delivers.restores (.bind (.popWith .popBoolean) fun _ => .bind (.popWith .popBoolean) fun _ => .give _)
  | bitAnd | bitOr | bitXor =>
    exact Delivers.restores (.bind (.popWith .popInteger) fun _ => .bind (.popWith .popInteger) fun _ => .give _)
  | complement => exact Delivers.restores (.bind (.popWith .popInteger) fun _ => .give _)

theorem MathWord.run_restores (w : MathWord) : Restores (Supplied w.demand 0) w.run := by
  cases w with
  | binary op => exact Delivers.restores (.bind .popPair fun _ => .give _)
  | unary op => exact Delivers.restores (.bind .pop fun _ => .give _)
  | rounding r => exact Delivers.restores (.bind (.popWith .popDouble) fun _ => .give _)
  | quadratic =>
    exact Delivers.restores
      (.bind .popAsDouble fun _ => .bind .popPair fun _ => .bind (.give _) fun _ => .push _)
  | constant x => exact .ofGuarded (.push _)

theorem ConversionWord.run_restores (w : ConversionWord) : Restores (Supplied w.demand 0) w.run := by
  cases w with
  | keep => exact Delivers.restores (.pure ())
  | toInteger | toDouble | toText => exact Delivers.restores (.bind .pop fun _ => .give _)

/-- may the operator fail with its operands gone? Those that take a value apart give its parts one after the other, and
those that make a timecode take its rate before they check it. -/
def Operator.spends : Operator → Bool
  | .vector .parts | .map .parts | .list .parts | .fraction .parts | .timecode .parts => true
  | .timecode .ofFrames | .timecode .ofFields => true
  | _ => false

theorem VectorWord.run_restores {w : VectorWord} (hw : Operator.spends (.vector w) = false) :
    Restores (Supplied w.demand 0) w.run := by
  cases w with
  | add | sub =>
    exact Delivers.restores (.bind (.popWith .popVec3) fun _ => .bind (.popWith .popVec3) fun _ => .give _)
  | addNumber | subNumber =>
    exact Delivers.restores (.bind .popAsDouble fun _ => .bind (.popWith .popVec3) fun _ => .give _)
  | numberAdd | numberSub =>
    exact Delivers.restores (.bind (.popWith .popVec3) fun _ => .bind .popAsDouble fun _ => .give _)
  | make =>
    exact Delivers.restores
      (.bind .popAsDouble fun _ => .bind .popAsDouble fun _ => .bind .popAsDouble fun _ => .give _)
  | onAxis axis => exact Delivers.restores (.bind .popAsDouble fun _ => .give _)
  | parts => cases hw

theorem MapWord.run_restores {w : MapWord} (hw : Operator.spends (.map w) = false) :
    Restores (Supplied w.demand 0) w.run := by
  cases w with
  | make => exact Delivers.restores (.bind (.popWith .popString) fun _ => .bind .pop fun _ => .give _)
  | insertBelow =>
    exact Delivers.restores
      (.bind (.popWith .popMap) fun _ => .bind (.popWith .popString) fun _ => .bind .pop fun _ => .give _)
  | insertAbove =>
    exact Delivers.restores
      (.bind (.popWith .popString) fun _ => .bind .pop fun _ => .bind (.popWith .popMap) fun _ => .give _)
  | parts => cases hw

theorem ListWord.run_restores {w : ListWord} (hw : Operator.spends (.list w) = false) :
    Restores (Supplied w.demand 0) w.run := by
  cases w with
  | make =>
    have hlast (n : Nat) (v : Value) : Delivers (fun s => s.Fits (n + 1)) (liftM (Stack.push v)) fun _ _ => True :=
      (Delivers.push v).conseq (fun _ h => h) fun _ _ _ => trivial
    exact Delivers.restores (.bind .popCount fun p => .bind (.takeAll (Stack.popN_eq p.2)) fun _ => hlast p.2 _)
  | append => exact Delivers.restores (.bind .pop fun _ => .bind (.popWith .popList) fun _ => .give _)
  | prepend => exact Delivers.restores (.bind (.popWith .popList) fun _ => .bind .pop fun _ => .give _)
  | parts => cases hw

theorem FractionWord.run_restores {w : FractionWord} (hw : Operator.spends (.fraction w) = false) :
    Restores (Supplied w.demand 0) w.run := by
  cases w with
  | make =>
    exact Delivers.restores (.bind (.popWith .popInteger) fun _ => .bind (.popWith .popInteger) fun _ => .give _)
  | ofDouble => exact Delivers.restores (.bind (.popWith .popDouble) fun _ => .give _)
  | toDouble | reciprocal | negate | square | squareRoot =>
    exact Delivers.restores (.bind (.popWith .popFraction) fun _ => .give _)
  | binary op => exact Delivers.restores (.bind .popPair fun _ => .give _)
  | parts => cases hw

/-- the rate of a timecode is not refused -/
theorem TimecodeWord.pushOr_delivers {before : Validator} {n : Nat} {t : Timecode} (ht : t.Rated) (frames : Int64) :
    Delivers (Supplied before (n + 1)) (pushOr t.rate (Timecode.ofFrames frames t.rate)) fun _ s => s.Fits n := by
  obtain ⟨u, hu⟩ := ht.exists_ofFrames frames
  rw [hu]
  exact .give _

theorem TimecodeWord.run_restores {w : TimecodeWord} (hw : Operator.spends (.timecode w) = false) :
    Restores (Supplied w.demand 0) w.run := by
  cases w with
  | rate | frames => exact Delivers.restores (.bind (.popWith .popTimecode) fun _ => .give _)
  | both shift =>
    exact Delivers.restores
      (.bind (.popWith .popTimecode) fun _ => .bind .popTimecode fun _ => .given fun hrate => pushOr_delivers hrate _)
  | framesOnTop shift =>
    exact Delivers.restores
      (.bind (.popWith .popInteger) fun _ => .bind .popTimecode fun _ => .given fun hrate => pushOr_delivers hrate _)
  | timecodeOnTop shift =>
    exact Delivers.restores
      (.bind .popTimecode fun _ => .given fun hrate => .bind (.popWith .popInteger) fun _ => pushOr_delivers hrate _)
  | ofFrames | ofFields | parts => cases hw

/-- on a stack that has the operands and is within its limit -/
theorem Operator.run_restores {o : Operator} (ho : o.spends = false) : Restores (Supplied o.demand 0) o.run := by
  cases o with
  | stack w => exact .ofGuarded w.operation_guarded
  | counted w => exact w.run_restores
  | logic w => exact w.run_restores
  | math w => exact w.run_restores
  | conversion w => exact w.run_restores
  | vector w => exact VectorWord.run_restores ho
  | map w => exact MapWord.run_restores ho
  | list w => exact ListWord.run_restores ho
  | fraction w => exact FractionWord.run_restores ho
  | timecode w => exact TimecodeWord.run_restores ho

/-! ## Steps of the machine -/

/-- on every data stack with the property, the step leaves the data stack as it was if it fails -/
def MachineM.Restores {α : Type} (P : Stack → Prop) (x : MachineM α) : Prop :=
  ∀ m, P m.stack → ∀ f m', x m = .error f m' → m'.stack = m.stack

namespace MachineM.Restores

variable {α β : Type} {P : Stack → Prop}

theorem ofEffect {x : Effect α} (hx : Effect.Restores P x) : Restores P (MachineM.ofEffect x) := by
  intro m hm f m' h
  unfold MachineM.ofEffect at h
  rcases hrun : x m.stack with ⟨a, s⟩ | ⟨f', s⟩
  · rw [hrun] at h
    cases h
  · rw [hrun] at h
    cases h
    exact hx m.stack hm _ _ hrun

theorem push (v : Value) : Restores P (Machine.push v) := ofEffect (.ofGuarded (.push v))

theorem throw (f : Fault) : Restores P (MonadExcept.throw f : MachineM α) := by
  intro m _ f' m' h
  cases h
  rfl

/-- a step that does not fail -/
theorem total {x : MachineM α} (hx : ∀ m, ∃ a m', x m = .ok a m') : Restores P x := by
  intro m _ f m' h
  obtain ⟨a, m₁, hok⟩ := hx m
  cases hok.symm.trans h

/-- nothing fails after the first step -/
theorem bindTotal {x : MachineM α} {g : α → MachineM β} (hx : Restores P x) (hg : ∀ a m, ∃ b m', g a m = .ok b m') :
    Restores P (x >>= g) := by
  intro m hm f m' h
  change EStateM.bind x g m = _ at h
  unfold EStateM.bind at h
  rcases hrun : x m with ⟨a, m₁⟩ | ⟨f', m₁⟩
  · rw [hrun] at h
    obtain ⟨b, m₂, hok⟩ := hg a m₁
    cases hok.symm.trans h
  · rw [hrun] at h
    cases h
    exact hx m hm _ _ hrun

/-- the first step does not change the data stack, whether it fails or not -/
theorem bindStill {x : MachineM α} {g : α → MachineM β}
    (hx : ∀ m, (∃ a m', x m = .ok a m' ∧ m'.stack = m.stack) ∨ ∃ f m', x m = .error f m' ∧ m'.stack = m.stack)
    (hg : ∀ a, Restores P (g a)) : Restores P (x >>= g) := by
  intro m hm f m' h
  change EStateM.bind x g m = _ at h
  unfold EStateM.bind at h
  rcases hx m with ⟨a, m₁, hrun, hstack⟩ | ⟨f', m₁, hrun, hstack⟩
  · rw [hrun] at h
    have hm₁ : P m₁.stack := hstack ▸ hm
    exact (hg a m₁ hm₁ f m' h).trans hstack
  · rw [hrun] at h
    cases h
    exact hstack

end MachineM.Restores

theorem takeUntil_still (delimiter : Char) (missing : Fault) (m : Machine) :
    (∃ text m', Machine.takeUntil delimiter missing m = .ok text m' ∧ m'.stack = m.stack) ∨
      ∃ f m', Machine.takeUntil delimiter missing m = .error f m' ∧ m'.stack = m.stack := by
  unfold Machine.takeUntil
  rcases Token.takeUntil delimiter m.input with _ | ⟨taken, rest⟩
  · exact .inr ⟨_, _, rfl, rfl⟩
  · exact .inl ⟨_, _, rfl, rfl⟩

theorem CoreWord.run_restores (w : CoreWord) : MachineM.Restores (Supplied w.demand 0) w.run := by
  cases w with
  | define | loop => exact .total fun _ => ⟨_, _, rfl⟩
  | comment => exact .bindStill (takeUntil_still _ _) fun _ => .total fun _ => ⟨_, _, rfl⟩
  | string => exact .bindStill (takeUntil_still _ _) fun _ => .push _
  | trace => exact .bindTotal (.ofEffect (.ofGuarded (.popWith _ _))) fun _ _ => ⟨_, _, rfl⟩
  | boolean b => exact .push _
  | strayEnd | strayNext => exact .throw _

theorem RandomWord.run_restores (w : RandomWord) :
    MachineM.Restores (Supplied w.demand 0) (w.run (.extension .generator)) := by
  cases w with
  | integer | unit => exact .bindStill (fun _ => .inl ⟨_, _, rfl, rfl⟩) fun _ => .push _
  | seed => exact .bindTotal (.ofEffect (.ofGuarded (.popWith _ _))) fun _ _ => ⟨_, _, rfl⟩

def Action.spends : Action → Bool
  | .operator o => o.spends
  | _ => false

theorem Definition.run_restores {x : Definition} (hx : x.isNative = true) (hspends : x.action.spends = false)
    (answer : Answer) : MachineM.Restores (Supplied x.action.demand 0) (x.run answer) := by
  obtain ⟨validator, action, context⟩ := x
  cases action with
  | core w => exact w.run_restores
  | operator o => exact .ofEffect (Operator.run_restores hspends)
  | random w =>
    obtain rfl := Definition.context_of_isNative hx
    exact w.run_restores
  | showStack => exact .total fun _ => ⟨_, _, rfl⟩
  | compiled | script steps => simp [Definition.isNative] at hx

/-! ## Words of a session -/

/-- the words that may fail with their operands gone -/
def spendingWords : List String := ["->TC", "ARRAY->", "OBJECT->", "VEC3->", "OBJ->"]

theorem spends_of_mem_natives : ∀ e ∈ natives, e.1 ∈ spendingWords ∨ e.2.action.spends = false := by decide +kernel

/-- a number is pushed or refused as it stands -/
theorem runWord_number_restores (answer : Answer) {word : String} (hword : Token.isNumeric word.toList = true) :
    MachineM.Restores (fun _ => True) (runWord answer word) := by
  intro m hm f m' h
  cases hliteral : Token.literal word.toList with
  | number v =>
    rw [runWord_number hliteral] at h
    exact MachineM.Restores.push (P := fun _ => True) v m hm f m' h
  | malformed =>
    rw [runWord_malformed hliteral] at h
    cases h
    rfl
  | name => cases hword.symm.trans (Token.literal_eq_name_iff.1 hliteral)

/-- a word with native definitions only -/
theorem runWord_native_restores (answer : Answer) {word : String} (hspending : word ∉ spendingWords) {m m' : Machine}
    (hnative : ∀ x ∈ m.dictionary.definitions word, (word, x) ∈ natives) (hroom : m.stack.Fits 0)
    (hrated : m.stack.Rated) (hliteral : Token.literal word.toList = .name) {f : Fault}
    (hrun : runWord answer word m = .error f m') : m'.stack = m.stack := by
  rcases hlookup : m.dictionary.lookup word m.stack with _ | x
  · rw [runWord_unmatched hliteral hlookup] at hrun
    cases hrun
    rfl
  · rw [runWord_lookup hliteral hlookup] at hrun
    have hfind : (m.dictionary.definitions word).find? (·.validator.accepts m.stack) = some x := hlookup
    have hmem := hnative x (List.mem_of_find?_eq_some hfind)
    have haccepts := List.find?_some hfind
    have hdemand := Validator.accepts_of_implies (natives_meet_demand _ hmem) haccepts
    have hspends := (spends_of_mem_natives _ hmem).resolve_left hspending
    exact Definition.run_restores (isNative_of_mem_natives _ hmem) hspends answer m ⟨hdemand, hroom, hrated⟩ f m' hrun

/-- a word that fails outside a compilation fails where it runs, with the same data stack -/
theorem runWord_of_evalOne_error {word rest : String} {m m' : Machine} (hidle : m.isCompiling = false) {f : Fault}
    (h : (m.evalOne word rest).1 = .error f m') :
    ∃ log m₁, runWord (answerUpTo m.allowance) word { m with input := rest.toList, log } = .error f m₁ ∧
      m'.stack = m₁.stack := by
  unfold Machine.evalOne at h
  by_cases hword : word = ""
  · subst hword
    cases h
  · obtain ⟨log, hrun⟩ := evalWord_idle (answerUpTo m.allowance) (m := { m with input := rest.toList }) hword hidle
    rw [hrun] at h
    rcases hr : runWord (answerUpTo m.allowance) word { m with input := rest.toList, log } with ⟨a, m₁⟩ | ⟨f', m₁⟩
    · rw [hr] at h
      cases h
    · obtain ⟨status, log', hsettle⟩ := m₁.settle_some word f'
      rw [hr, settled_error, hsettle] at h
      cases h
      exact ⟨log, m₁, hr, rfl⟩

/-- faults over operands are no parse errors, so they leave the rest of the line -/
theorem Fault.kind_ne_parse {f : Fault} (h : f.isOperand = true) : f.kind ≠ .parse := by
  cases f with
  | stack e => cases e <;> simp [Fault.kind]
  | noMatch _ | badCount _ | badRate _ => simp [Fault.kind]
  | _ => cases h

section Operator

variable {word : String} (hword : word ≠ "" ∧ Token.isNumeric word.toList = false) {m : Machine}
  (hidle : m.isCompiling = false) {validator : Validator} {o : Operator} {context : Context}
  (hlookup : m.dictionary.lookup word m.stack = some ⟨validator, .operator o, context⟩) (rest : String)

include hword hidle hlookup

/-- a word with an operator does to the data stack what the operator does -/
theorem evalOne_operator_ok {s : Stack} (hrun : o.run m.stack = .ok () s) :
    ∃ m', m.evalOne word rest = (.ok () m', rest) ∧ m'.stack = s := by
  obtain ⟨log, hlog⟩ := evalWord_idle (answerUpTo m.allowance) (m := { m with input := rest.toList }) hword.1 hidle
  have hok : runWord (answerUpTo m.allowance) word { m with input := rest.toList, log } =
      .ok () { m with input := rest.toList, log, stack := s } := by
    rw [runWord_lookup (Token.literal_eq_name_iff.2 hword.2) (by exact hlookup)]
    change MachineM.ofEffect o.run _ = _
    unfold MachineM.ofEffect
    rw [hrun]
  obtain ⟨status, log', hsettle⟩ := Machine.settle_none { m with input := rest.toList, log, stack := s } word
  refine ⟨{ m with stack := s, status, log := log' }, ?_, rfl⟩
  unfold Machine.evalOne
  rw [hlog, hok, settled_ok, hsettle]
  exact congrArg (Prod.mk _) String.ofList_toList

theorem evalOne_operator_error {f : Fault} {s : Stack} (hrun : o.run m.stack = .error f s) :
    ∃ m', m.evalOne word rest = (.error f m', rest) ∧ m'.stack = s := by
  obtain ⟨log, hlog⟩ := evalWord_idle (answerUpTo m.allowance) (m := { m with input := rest.toList }) hword.1 hidle
  have herror : runWord (answerUpTo m.allowance) word { m with input := rest.toList, log } =
      .error f { m with input := rest.toList, log, stack := s } := by
    rw [runWord_lookup (Token.literal_eq_name_iff.2 hword.2) (by exact hlookup)]
    change MachineM.ofEffect o.run _ = _
    unfold MachineM.ofEffect
    rw [hrun]
  obtain ⟨status, log', hsettle⟩ := Machine.settle_some { m with input := rest.toList, log, stack := s } word f
  refine ⟨{ m with compilation := {}, stack := s, status, log := log' }, ?_, rfl⟩
  unfold Machine.evalOne
  rw [hlog, herror, settled_error, hsettle, if_neg (Fault.kind_ne_parse (o.run_blames _ _ _ hrun))]
  exact congrArg (Prod.mk _) String.ofList_toList

end Operator

/-- **A failing native word keeps its operands.** Outside a compilation and with the data stack within its limit, let a
word that starts like a number, or one that has native definitions only and is not among `spendingWords`, fail for
whatever reason. The data stack is then as it was before the word. -/
theorem failing_word_keeps_stack {word rest : String} {m m' : Machine} {f : Fault} (hidle : m.isCompiling = false)
    (hroom : m.stack.Fits 0) (hrated : m.stack.Rated)
    (hword : Token.isNumeric word.toList = true ∨
      word ∉ spendingWords ∧ ∀ x ∈ m.dictionary.definitions word, (word, x) ∈ natives)
    (hrun : (m.evalOne word rest).1 = .error f m') : m'.stack = m.stack := by
  obtain ⟨log, m₁, hrun, hstack⟩ := runWord_of_evalOne_error hidle hrun
  rw [hstack]
  cases hnumeric : Token.isNumeric word.toList with
  | true => exact runWord_number_restores _ hnumeric { m with input := rest.toList, log } trivial f m₁ hrun
  | false =>
    obtain ⟨hspending, hnative⟩ := hword.resolve_left (by simp [hnumeric])
    exact runWord_native_restores _ hspending (m := { m with input := rest.toList, log }) hnative hroom hrated
      (Token.literal_eq_name_iff.2 hnumeric) hrun

/-- copying a timecode and a text at a limit of three: the count is taken, there is no room, and it is given back -/
theorem failing_word_keeps_stack_dupN :
    ∃ m m' : Machine, m.isCompiling = false ∧
      m.stack = ⟨[.integer 2, .timecode ⟨0, 0, 0, 10, .ofInteger 24⟩, .string "a"], some 3⟩ ∧
      m.stack.Fits 0 ∧ m.stack.Rated ∧ "DUPN" ∉ spendingWords ∧
      (∀ x ∈ m.dictionary.definitions "DUPN", ("DUPN", x) ∈ natives) ∧
      (m.evalOne "DUPN" "").1 = .error (.stack (.overflow 3)) m' ∧ m'.stack = m.stack := by
  obtain ⟨dictionary, status, log, -, hholds⟩ := start_ok (s := {}) rfl
  have hname : "DUPN" ∈ natives.map Prod.fst := by decide +kernel
  have hbody := hholds.body?_eq_none hname
  have hlookup : dictionary.lookup "DUPN" ⟨[.integer 2, .timecode ⟨0, 0, 0, 10, .ofInteger 24⟩, .string "a"], some 3⟩ =
      some ⟨.countOnTop, .operator (.counted .dupN), .none⟩ := by
    rw [hholds.built.lookup_bodiless hbody]
    rfl
  obtain ⟨m', hrun, -⟩ := evalOne_operator_error (isName_of_mem_natives _ hname)
    (m := { dictionary, stack := ⟨[.integer 2, .timecode ⟨0, 0, 0, 10, .ofInteger 24⟩, .string "a"], some 3⟩ })
    rfl hlookup "" rfl
  have hroom : Stack.Fits ⟨[.integer 2, .timecode ⟨0, 0, 0, 10, .ofInteger 24⟩, .string "a"], some 3⟩ 0 := by
    rintro l ⟨⟩
    decide
  have hmade : Timecode.ofFrames 10 (.ofInteger 24) = some ⟨0, 0, 0, 10, .ofInteger 24⟩ := rfl
  have hrated : Stack.Rated ⟨[.integer 2, .timecode ⟨0, 0, 0, 10, .ofInteger 24⟩, .string "a"], some 3⟩ := by
    intro t ht
    obtain rfl : t = ⟨0, 0, 0, 10, .ofInteger 24⟩ := by simpa using ht
    exact Timecode.rated_of_ofFrames hmade
  have hnative : ∀ x ∈ dictionary.definitions "DUPN", ("DUPN", x) ∈ natives := fun x hx =>
    hholds.built.mem_natives_of_bodiless hbody hx
  have hspending : "DUPN" ∉ spendingWords := by decide
  have hfails := congrArg Prod.fst hrun
  exact ⟨_, m', rfl, rfl, hroom, hrated, hspending, hnative, hfails,
    failing_word_keeps_stack rfl hroom hrated (.inr ⟨hspending, hnative⟩) hfails⟩

end ReversePolish
