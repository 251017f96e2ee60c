/-
What words draw on, said once for every word.

`Covers before x after`: on every stack that the validator `before` accepts, the step ends with a stack that `after`
accepts, or with a fault that is not about the shape of the stack. `Draws` adds what needs no validator: the step fails
over its operands only, and does the same on a stack that is raised or has a looser limit. Every word on the data stack
has a `demand`, the shape that its steps draw on one after the other. Results, for every operator:
- `Operator.run_blames`, `Operator.run_scales`: it fails over its operands only, and does not notice a limit;
- `Operator.run_portable`: it does not see what lies below its operands, unless it acts on the whole stack;
- `Operator.run_covers`: where its demand is met, it does not fail over the shape of the stack.
-/
import ReversePolish.Proofs.Word.Limit
import ReversePolish.Proofs.Word.Operand
import ReversePolish.Proofs.Word.Validator

namespace ReversePolish

/-- a count that the validator accepts is taken, and there are as many items below it as it says -/
theorem Effect.popCount_accepted {s : Stack} (h : Validator.countOnTop.accepts s = true) :
    ∃ n below, s.items = .integer n :: below ∧ n.toInt.toNat ≤ below.length ∧
      Effect.popCount s = .ok (n, n.toInt.toNat) { s with items := below } := by
  obtain ⟨items, limit⟩ := s
  obtain ⟨n, below, rfl, hn, hle⟩ := Validator.accepts_countOnTop.1 h
  have hnonneg : ¬ n < 0 := by
    rw [Int64.lt_iff_toInt_lt]
    exact Int.not_lt.2 hn
  exact ⟨n, below, rfl, hle, Effect.popCount_ok hnonneg below limit⟩

/-! ## Faults over the shape of the stack -/

/-- does the operation miss items, or items of another kind? -/
def StackError.isShape : StackError → Bool
  | .underflow _ _ | .typeMismatch _ _ => true
  | _ => false

/-- does the word miss operands, operands of another kind, a count in range, or its generator? -/
def Fault.isShape : Fault → Bool
  | .stack e => e.isShape
  | .badCount _ | .noGenerator => true
  | _ => false

theorem StackError.isShape_of_isOverflow {e : StackError} (h : e.isOverflow = true) : e.isShape = false := by
  cases e with
  | overflow l => rfl
  | _ => cases h

/-- the result is a stack that the validator accepts, or a fault that is not about the shape of the stack -/
inductive Covered {ε α : Type} (isShape : ε → Bool) (after : α → Validator) : EStateM.Result ε Stack α → Prop
  | ok {a : α} {s : Stack} (h : (after a).accepts s = true) : Covered isShape after (.ok a s)
  | error {e : ε} {s : Stack} (h : isShape e = false) : Covered isShape after (.error e s)

def Stack.Covers {α : Type} (before : Validator) (x : StackM α) (after : α → Validator) : Prop :=
  ∀ s : Stack, before.accepts s = true → Covered StackError.isShape after (x s)

def Effect.Covers {α : Type} (x : Effect α) (before : Validator) (after : α → Validator) : Prop :=
  ∀ s : Stack, before.accepts s = true → Covered Fault.isShape after (x s)

/-! ## Operations of the stack -/

namespace Stack

variable {α : Type} {n k : Nat} {grow : Option Nat} {slot : Slot} {slots : List Slot}

theorem replaceFront_covered (a : α) (items : List Value) (s : Stack) :
    Covered StackError.isShape (fun _ => .depth 0) (replaceFront n grow a items s) := by
  change Covered _ _ (EStateM.bind (roomFor grow) _ s)
  unfold EStateM.bind
  rcases roomFor_cases grow s with hroom | ⟨l, hroom⟩
  · rw [hroom]
    exact .ok rfl
  · rw [hroom]
    exact .error rfl

/-- an operation on a top part that is there -/
theorem onFront_covers {f : List Value → Except StackError (α × List Value)}
    (hf : ∀ items e, f items = .error e → e.isShape = false) :
    Covers (.depth n) (onFront n grow f) fun _ => .depth 0 := by
  intro s hs
  have hdeep : ¬ s.depth < n := Nat.not_lt.2 (of_decide_eq_true hs)
  cases hr : f (s.items.take n) with
  | error e =>
    rw [onFront_refused hdeep hr]
    exact .error (hf _ _ hr)
  | ok p =>
    rw [onFront_done hdeep hr]
    exact replaceFront_covered _ _ s

/-- an operation on the item on top -/
theorem taken_covers {view : Value → Except StackError α}
    (hview : ∀ v e, slot.accepts v.kind = true → view v = .error e → e.isShape = false) :
    Covers (.kinds (slot :: slots)) (onFront 1 none (taken view)) fun _ => .kinds slots := by
  rintro ⟨items, limit⟩ hs
  cases items with
  | nil => cases hs
  | cons v rest =>
    obtain ⟨hslot, hrest⟩ := Bool.and_eq_true_iff.1 hs
    have hdeep : ¬ depth ⟨v :: rest, limit⟩ < 1 := by simp [depth]
    cases hr : view v with
    | error e =>
      have htaken : taken view [v] = .error e := by rw [taken, hr]; rfl
      rw [onFront_refused hdeep htaken]
      exact .error (hview v e hslot hr)
    | ok a =>
      have htaken : taken view [v] = .ok (a, []) := by rw [taken, hr]; rfl
      rw [onFront_done hdeep htaken]
      exact .ok hrest

theorem peek_covers (hn : n ≤ k) : Covers (.depth k) (peek n) fun _ => .depth k := by
  intro s hs
  have hdeep : ¬ s.depth < n := by
    have : k ≤ s.depth := of_decide_eq_true hs
    omega
  rcases Nat.eq_zero_or_pos n with rfl | hpos
  · exact .error rfl
  · obtain ⟨v, hv, -⟩ := deepest_take (Nat.ne_of_gt hpos) hdeep
    rw [peek_found (Nat.ne_of_gt hpos) hv]
    exact .ok hs

/-- an operation that draws on the top k items, of any kinds -/
structure Draws (k : Nat) (x : StackM α) : Prop where
  portable : Portable x
  covers : Covers (.depth k) x fun _ => .depth 0

theorem onFront_draws {x : StackM α} {f : List Value → Except StackError (α × List Value)} (hx : x = onFront n grow f)
    (hf : ∀ items e, f items = .error e → e.isShape = false) : Draws n x := by
  subst hx
  exact ⟨onFront_portable n grow f, onFront_covers hf⟩

/-- no item is refused at the position, unless the position is zero -/
theorem atPosition_draws {x : StackM α} {g : Value → List Value → α × List Value} (hx : x = atPosition n grow g) :
    Draws n x := by
  refine onFront_draws hx fun items e h => ?_
  unfold deepest at h
  split at h
  · cases h
  · cases h
    rfl

theorem Draws.discard {x : StackM α} (hx : Draws k x) : Draws k (do let _ ← x) := by
  refine ⟨fun g => .bind (hx.portable g) fun _ => .pure _, fun s hs => ?_⟩
  have hrun := hx.covers s hs
  change Covered _ _ (EStateM.bind x _ s)
  unfold EStateM.bind
  generalize x s = r at hrun ⊢
  cases hrun with
  | ok h => exact .ok h
  | error h => exact .error h

theorem popN_draws (n : Nat) : Draws n (popN n) := onFront_draws (popN_eq n) fun _ _ h => by cases h

theorem dropN_draws (n : Nat) : Draws n (dropN n) := onFront_draws (dropN_eq n) fun _ _ h => by cases h

theorem pick_draws (n : Nat) : Draws n (pick n) := atPosition_draws (pick_eq n)

/-- a rearrangement of the top items -/
theorem rearrange_draws (n : Nat) (g : List Value → List Value) : Draws n (do need n; onTop n g) :=
  onFront_draws (rearrange_eq n g) fun _ _ h => by cases h

end Stack

/-! ## Steps of words -/

theorem Effect.Covers.ofStack {α : Type} {before : Validator} {x : StackM α} {after : α → Validator}
    (hx : Stack.Covers before x after) : (Effect.ofStack x).Covers before after := by
  intro s hs
  have hrun := hx s hs
  unfold Effect.ofStack
  generalize x s = r at hrun ⊢
  cases hrun with
  | ok h => exact .ok h
  | error h => exact .error h

/-- a step that fails over its operands only, does not see what lies below them, and is covered by a validator -/
structure Effect.Draws {α : Type} (before : Validator) (x : Effect α) (after : α → Validator) : Prop where
  blames : x.Blames
  portable : x.Portable
  covers : x.Covers before after

namespace Effect.Draws

variable {α β : Type} {before : Validator} {slot : Slot} {slots : List Slot} {n k : Nat}

theorem pure (a : α) : Draws before (Pure.pure a) fun _ => before :=
  ⟨.pure a, .pure a, fun _ hs => .ok hs⟩

theorem done : Draws before (Pure.pure ()) fun _ => .depth 0 :=
  ⟨.pure (), .pure (), fun _ _ => .ok rfl⟩

theorem throw {f : Fault} {after : α → Validator} (hf : f.isOperand = true) (hshape : f.isShape = false) :
    Draws before (MonadExcept.throw f) after :=
  ⟨.throw hf, .throw f, fun _ _ => .error hshape⟩

theorem bind {x : Effect α} {f : α → Effect β} {mid : α → Validator} {after : β → Validator} (hx : Draws before x mid)
    (hf : ∀ a, Draws (mid a) (f a) after) : Draws before (x >>= f) after := by
  refine ⟨hx.blames.bind fun a => (hf a).blames, hx.portable.bind fun a => (hf a).portable, fun s hs => ?_⟩
  have hrun := hx.covers s hs
  change Covered _ _ (EStateM.bind x f s)
  unfold EStateM.bind
  generalize x s = r at hrun ⊢
  cases hrun with
  | ok h => exact (hf _).covers _ h
  | error h => exact .error h

theorem ofStack {x : StackM α} {after : α → Validator} (hx : Stack.Portable x) (hcovers : Stack.Covers before x after) :
    Draws before (Effect.ofStack x) after :=
  ⟨.ofStack x, .ofStack hx, .ofStack hcovers⟩

/-! ### Operations -/

theorem push (v : Value) : Draws before (liftM (Stack.push v)) fun _ => .depth 0 := by
  refine ofStack (Stack.push_portable v) fun s _ => ?_
  rw [Stack.push_eq]
  exact Stack.replaceFront_covered _ _ s

theorem pop : Draws (.kinds (slot :: slots)) (liftM Stack.pop) fun _ => .kinds slots := by
  refine ofStack ?_ ?_ <;> rw [Stack.pop_eq]
  · exact Stack.onFront_portable _ _ _
  · exact Stack.taken_covers fun v e _ h => by cases h

theorem popAsDouble : Draws (.kinds (slot :: slots)) (liftM Stack.popAsDouble) fun _ => .kinds slots := by
  refine ofStack ?_ ?_ <;> rw [Stack.popAsDouble, Stack.popThen_eq]
  · exact Stack.onFront_portable _ _ _
  · exact Stack.taken_covers fun v e _ h => by cases h

theorem popWith {kind : Kind} {view : Value → Option α} (hview : ∀ v : Value, v.kind = kind → view v ≠ none) :
    Draws (.kinds (.kind kind :: slots)) (liftM (Stack.popWith kind view)) fun _ => .kinds slots := by
  refine ofStack (Stack.popWith_portable kind view) ?_
  rw [Stack.popWith_eq]
  refine Stack.taken_covers fun v e hv h => ?_
  unfold Stack.seen at h
  split at h
  · cases h
  · rename_i hnone
    exact absurd hnone (hview v (of_decide_eq_true hv).symm)

theorem popBoolean : Draws (.kinds (.kind .boolean :: slots)) (liftM Stack.popBoolean) fun _ => .kinds slots :=
  popWith fun v => by cases v <;> simp [Value.kind]

theorem popInteger : Draws (.kinds (.kind .integer :: slots)) (liftM Stack.popInteger) fun _ => .kinds slots :=
  popWith fun v => by cases v <;> simp [Value.kind]

theorem popDouble : Draws (.kinds (.kind .double :: slots)) (liftM Stack.popDouble) fun _ => .kinds slots :=
  popWith fun v => by cases v <;> simp [Value.kind]

theorem popString : Draws (.kinds (.kind .string :: slots)) (liftM Stack.popString) fun _ => .kinds slots :=
  popWith fun v => by cases v <;> simp [Value.kind]

theorem popVec3 : Draws (.kinds (.kind .vec3 :: slots)) (liftM Stack.popVec3) fun _ => .kinds slots :=
  popWith fun v => by cases v <;> simp [Value.kind]

theorem popFraction : Draws (.kinds (.kind .fraction :: slots)) (liftM Stack.popFraction) fun _ => .kinds slots :=
  popWith fun v => by cases v <;> simp [Value.kind]

theorem popTimecode : Draws (.kinds (.kind .timecode :: slots)) (liftM Stack.popTimecode) fun _ => .kinds slots :=
  popWith fun v => by cases v <;> simp [Value.kind]

theorem popList : Draws (.kinds (.kind .list :: slots)) (liftM Stack.popList) fun _ => .kinds slots :=
  popWith fun v => by cases v <;> simp [Value.kind]

theorem popMap : Draws (.kinds (.kind .map :: slots)) (liftM Stack.popMap) fun _ => .kinds slots :=
  popWith fun v => by cases v <;> simp [Value.kind]

theorem popPair {slot' : Slot} : Draws (.kinds (slot :: slot' :: slots)) Effect.popPair fun _ => .kinds slots :=
  .bind pop fun _ => .bind pop fun _ => .pure _

/-- a count that is accepted leaves as many items as it says -/
theorem popCount : Draws .countOnTop Effect.popCount fun p => .depth p.2 := by
  refine ⟨?_, ?_, ?_⟩
  · refine .bind (.lift Stack.popInteger) fun n => ?_
    dsimp only
    split
    · exact .throwThen rfl _
    · exact .pure _
  · refine .bind (.ofStack (Stack.popWith_portable _ _)) fun n => ?_
    dsimp only
    split
    · exact fun _ => .throwThen _ _
    · exact .pure _
  · intro s hs
    obtain ⟨n, below, -, hle, hrun⟩ := popCount_accepted hs
    rw [hrun]
    exact .ok (decide_eq_true hle)

theorem pushAll (values : List Value) : Draws before (Effect.pushAll values) fun _ => .depth 0 := by
  induction values generalizing before with
  | nil => exact done
  | cons v rest ih => exact .bind (push v) fun _ => ih

theorem peek (hn : n ≤ k) : Draws (.depth k) (liftM (Stack.peek n)) fun _ => .depth k :=
  ofStack (Stack.peek_portable n) (Stack.peek_covers hn)

theorem drawn {x : StackM α} (hx : Stack.Draws k x) : Draws (.depth k) (liftM x) fun _ => .depth 0 :=
  ofStack hx.portable hx.covers

/-- giving the count back changes a fault into an overflow at most -/
theorem orGiveBack {x : StackM Unit} (n : Int64) (hx : Stack.Draws k x) :
    Draws (.depth k) (CountedWord.orGiveBack n x) fun _ => .depth 0 := by
  refine ⟨CountedWord.orGiveBack_blames n x, CountedWord.orGiveBack_portable n hx.portable, fun s hs => ?_⟩
  have hrun := hx.covers s hs
  unfold CountedWord.orGiveBack
  generalize x s = r at hrun ⊢
  cases hrun with
  | ok h => exact .ok h
  | @error e s h =>
    dsimp only
    split
    · exact .error h
    · rename_i e' s' hpush
      exact .error (StackError.isShape_of_isOverflow (Stack.push_error hpush))

end Effect.Draws

/-! ## Words -/

open Effect

def StackWord.demand : StackWord → Validator
  | .drop | .dup => .depth 1
  | .swap | .copySecond => .depth 2
  | .rotateUp | .rotateDown => .depth 3
  | .clear | .depth | .rollUp | .rollDown | .reverse => .depth 0

/-- does the word leave alone what lies below its operands? -/
def StackWord.isLocal : StackWord → Bool
  | .clear | .depth | .rollUp | .rollDown | .reverse => false
  | _ => true

def LogicWord.demand : LogicWord → Validator
  | .choose => .kinds [.kind .boolean, .any, .any]
  | .equal | .different => .kinds [.any, .any]
  | .order _ => .depth 2
  | .not => .ofKinds [.boolean]
  | .and | .or => .ofKinds [.boolean, .boolean]
  | .bitAnd | .bitOr | .bitXor => .ofKinds [.integer, .integer]
  | .complement => .ofKinds [.integer]

def MathWord.demand : MathWord → Validator
  | .binary _ => .kinds [.any, .any]
  | .unary _ => .kinds [.any]
  | .rounding _ => .ofKinds [.double]
  | .quadratic => .kinds [.any, .any, .any]
  | .constant _ => .depth 0

def ConversionWord.demand : ConversionWord → Validator
  | .keep => .depth 0
  | .toInteger | .toDouble | .toText => .kinds [.any]

def VectorWord.demand : VectorWord → Validator
  | .add | .sub => .ofKinds [.vec3, .vec3]
  | .addNumber | .subNumber => .kinds [.any, .kind .vec3]
  | .numberAdd | .numberSub => .kinds [.kind .vec3, .any]
  | .make => .kinds [.any, .any, .any]
  | .onAxis _ => .kinds [.any]
  | .parts => .ofKinds [.vec3]

def MapWord.demand : MapWord → Validator
  | .make => .kinds [.kind .string, .any]
  | .insertBelow => .kinds [.kind .map, .kind .string, .any]
  | .insertAbove => .kinds [.kind .string, .any, .kind .map]
  | .parts => .ofKinds [.map]

def ListWord.demand : ListWord → Validator
  | .make => .countOnTop
  | .parts => .ofKinds [.list]
  | .append => .kinds [.any, .kind .list]
  | .prepend => .kinds [.kind .list, .any]

def FractionWord.demand : FractionWord → Validator
  | .make => .ofKinds [.integer, .integer]
  | .ofDouble => .ofKinds [.double]
  | .toDouble | .parts | .reciprocal | .negate | .square | .squareRoot => .ofKinds [.fraction]
  | .binary _ => .kinds [.any, .any]

def TimecodeWord.demand : TimecodeWord → Validator
  | .ofFrames => .ofKinds [.integer, .fraction]
  | .ofFields => .ofKinds [.integer, .integer, .integer, .integer, .fraction]
  | .rate | .frames | .parts => .ofKinds [.timecode]
  | .both _ => .ofKinds [.timecode, .timecode]
  | .framesOnTop _ => .ofKinds [.integer, .timecode]
  | .timecodeOnTop _ => .ofKinds [.timecode, .integer]

theorem StackWord.run_draws {w : StackWord} (hw : w.isLocal = true) : Draws w.demand w.run fun _ => .depth 0 := by
  cases w with
  | drop =>
    refine .drawn (.discard (Stack.onFront_draws Stack.pop_eq fun items e h => ?_))
    cases items with
    | nil =>
      cases h
      rfl
    | cons v rest => cases h
  | swap => exact .drawn (Stack.rearrange_draws 2 _)
  | copySecond => exact .drawn (Stack.pick_draws 2)
  | dup => exact .drawn (Stack.pick_draws 1)
  | rotateUp | rotateDown => exact .drawn (Stack.rearrange_draws 3 _)
  | clear | depth | rollUp | rollDown | reverse => cases hw

theorem CountedWord.operation_draws (w : CountedWord) (n : Nat) : Stack.Draws n (w.operation n) := by
  cases w with
  | dropN => exact Stack.dropN_draws n
  | dupN => exact Stack.onFront_draws (Stack.dupN_eq n) fun _ _ h => by cases h
  | nipN => exact .discard (Stack.atPosition_draws (Stack.nipN_eq n))
  | pick => exact Stack.pick_draws n
  | tuckN => exact Stack.atPosition_draws (Stack.tuckN_eq n)
  | rollDownN | rollUpN | reverseN => exact Stack.rearrange_draws n _

theorem CountedWord.run_draws (w : CountedWord) : Draws .countOnTop w.run fun _ => .depth 0 :=
  .bind .popCount fun ⟨n, count⟩ => .orGiveBack n (w.operation_draws count)

theorem LogicWord.compareTop_draws (test : OrderTest) : Draws (.depth 2) (compareTop test) fun _ => .depth 0 := by
  refine .bind (.peek (by decide)) fun a => .bind (.peek (by decide)) fun b => ?_
  split
  · exact .throw rfl rfl
  · exact .bind (.drawn (Stack.dropN_draws 2)) fun _ => .push _

theorem LogicWord.run_draws (w : LogicWord) : Draws w.demand w.run fun _ => .depth 0 := by
  cases w with
  | choose => exact .bind .popBoolean fun _ => .bind .popPair fun _ => .push _
  | equal | different => exact .bind .popPair fun _ => .push _
  | order test => exact compareTop_draws test
  | not => exact .bind .popBoolean fun _ => .push _
  | and | or => exact .bind .popBoolean fun _ => .bind .popBoolean fun _ => .push _
  | bitAnd | bitOr | bitXor => exact .bind .popInteger fun _ => .bind .popInteger fun _ => .push _
  | complement => exact .bind .popInteger fun _ => .push _

theorem MathWord.run_draws (w : MathWord) : Draws w.demand w.run fun _ => .depth 0 := by
  cases w with
  | binary op => exact .bind .popPair fun _ => .push _
  | unary op => exact .bind .pop fun _ => .push _
  | rounding r => exact .bind .popDouble fun _ => .push _
  | quadratic =>
    exact .bind .popAsDouble fun _ => .bind .popPair fun _ => .bind (.push _) fun _ => .push _
  | constant x => exact .push _

theorem ConversionWord.run_draws (w : ConversionWord) : Draws w.demand w.run fun _ => .depth 0 := by
  cases w with
  | keep => exact .done
  | toInteger | toDouble | toText => exact .bind .pop fun _ => .push _

theorem VectorWord.run_draws (w : VectorWord) : Draws w.demand w.run fun _ => .depth 0 := by
  cases w with
  | add | sub => exact .bind .popVec3 fun _ => .bind .popVec3 fun _ => .push _
  | addNumber | subNumber => exact .bind .popAsDouble fun _ => .bind .popVec3 fun _ => .push _
  | numberAdd | numberSub => exact .bind .popVec3 fun _ => .bind .popAsDouble fun _ => .push _
  | make => exact .bind .popAsDouble fun _ => .bind .popAsDouble fun _ => .bind .popAsDouble fun _ => .push _
  | onAxis axis => exact .bind .popAsDouble fun _ => .push _
  | parts => exact .bind .popVec3 fun _ => .pushAll _

theorem MapWord.run_draws (w : MapWord) : Draws w.demand w.run fun _ => .depth 0 := by
  cases w with
  | make => exact .bind .popString fun _ => .bind .pop fun _ => .push _
  | insertBelow => exact .bind .popMap fun _ => .bind .popString fun _ => .bind .pop fun _ => .push _
  | insertAbove => exact .bind .popString fun _ => .bind .pop fun _ => .bind .popMap fun _ => .push _
  | parts => exact .bind .popMap fun _ => .bind (.pushAll _) fun _ => .push _

theorem ListWord.run_draws (w : ListWord) : Draws w.demand w.run fun _ => .depth 0 := by
  cases w with
  | make => exact .bind .popCount fun p => .bind (.drawn (Stack.popN_draws p.2)) fun _ => .push _
  | parts => exact .bind .popList fun _ => .bind (.pushAll _) fun _ => .push _
  | append => exact .bind .pop fun _ => .bind .popList fun _ => .push _
  | prepend => exact .bind .popList fun _ => .bind .pop fun _ => .push _

theorem FractionWord.run_draws (w : FractionWord) : Draws w.demand w.run fun _ => .depth 0 := by
  cases w with
  | make => exact .bind .popInteger fun _ => .bind .popInteger fun _ => .push _
  | ofDouble => exact .bind .popDouble fun _ => .push _
  | toDouble | reciprocal | negate | square | squareRoot => exact .bind .popFraction fun _ => .push _
  | parts => exact .bind .popFraction fun _ => .pushAll _
  | binary op => exact .bind .popPair fun _ => .push _

theorem TimecodeWord.pushOr_draws {before : Validator} (rate : Fraction) (t : Option Timecode) :
    Draws before (pushOr rate t) fun _ => .depth 0 := by
  cases t with
  | none => exact .throw rfl rfl
  | some t => exact .push _

theorem TimecodeWord.run_draws (w : TimecodeWord) : Draws w.demand w.run fun _ => .depth 0 := by
  cases w with
  | ofFrames => exact .bind .popInteger fun _ => .bind .popFraction fun _ => pushOr_draws _ _
  | ofFields =>
    exact .bind .popInteger fun _ => .bind .popInteger fun _ => .bind .popInteger fun _ => .bind .popInteger fun _ =>
      .bind .popFraction fun _ => pushOr_draws _ _
  | rate | frames => exact .bind .popTimecode fun _ => .push _
  | parts => exact .bind .popTimecode fun _ => .pushAll _
  | both shift => exact .bind .popTimecode fun _ => .bind .popTimecode fun _ => pushOr_draws _ _
  | framesOnTop shift => exact .bind .popInteger fun _ => .bind .popTimecode fun _ => pushOr_draws _ _
  | timecodeOnTop shift => exact .bind .popTimecode fun _ => .bind .popInteger fun _ => pushOr_draws _ _

/-! ## Words on the whole stack -/

theorem StackWord.operation_scales (w : StackWord) (hw : w.isLocal = false) : Stack.Scales w.operation := by
  cases w with
  | clear => exact Stack.modifyItems_scales fun _ => []
  | reverse => exact Stack.modifyItems_scales List.reverse
  | depth => exact Stack.atDepth_scales fun n => Stack.push_scales (count n)
  | rollUp | rollDown => exact Stack.atDepth_scales fun n => (Stack.rearrange_draws n _).portable.scales
  | drop | swap | copySecond | dup | rotateUp | rotateDown => cases hw

theorem StackWord.operation_covers (w : StackWord) (hw : w.isLocal = false) :
    Stack.Covers (.depth 0) w.operation fun _ => .depth 0 := by
  intro s _
  have hwhole (g : List Value → List Value) :
      Covered StackError.isShape (fun _ => .depth 0) ((do Stack.need s.depth; Stack.onTop s.depth g : StackM Unit) s) :=
    (Stack.rearrange_draws s.depth g).covers s (decide_eq_true (Nat.le_refl _))
  cases w with
  | clear | reverse => exact .ok rfl
  | depth =>
    change Covered _ _ (Stack.push (count s.depth) s)
    rw [Stack.push_eq]
    exact Stack.replaceFront_covered _ _ s
  | rollUp | rollDown => exact hwhole _
  | drop | swap | copySecond | dup | rotateUp | rotateDown => cases hw

/-! ## Operators -/

namespace Operator

/-- the shape that the operator draws on -/
def demand : Operator → Validator
  | .stack w => w.demand
  | .counted _ => .countOnTop
  | .logic w => w.demand
  | .math w => w.demand
  | .conversion w => w.demand
  | .vector w => w.demand
  | .map w => w.demand
  | .list w => w.demand
  | .fraction w => w.demand
  | .timecode w => w.demand

/-- does the operator leave alone what lies below its operands? -/
def isLocal : Operator → Bool
  | .stack w => w.isLocal
  | _ => true

theorem run_draws {o : Operator} (ho : o.isLocal = true) : Draws o.demand o.run fun _ => .depth 0 := by
  cases o with
  | stack w => exact w.run_draws ho
  | counted w => exact w.run_draws
  | logic w => exact w.run_draws
  | math w => exact w.run_draws
  | conversion w => exact w.run_draws
  | vector w => exact w.run_draws
  | map w => exact w.run_draws
  | list w => exact w.run_draws
  | fraction w => exact w.run_draws
  | timecode w => exact w.run_draws

theorem isLocal_or (o : Operator) : o.isLocal = true ∨ ∃ w : StackWord, o = .stack w ∧ w.isLocal = false := by
  cases o with
  | stack w =>
    cases hw : w.isLocal with
    | true => exact .inl hw
    | false => exact .inr ⟨w, rfl, hw⟩
  | _ => exact .inl rfl

theorem run_blames (o : Operator) : o.run.Blames := by
  rcases o.isLocal_or with ho | ⟨w, rfl, -⟩
  · exact (run_draws ho).blames
  · exact .ofStack w.operation

theorem run_scales (o : Operator) : o.run.Scales := by
  rcases o.isLocal_or with ho | ⟨w, rfl, hw⟩
  · exact (run_draws ho).portable.scales
  · exact ofStack_scales (w.operation_scales hw)

theorem run_portable {o : Operator} (ho : o.isLocal = true) : o.run.Portable := (run_draws ho).portable

theorem run_covers (o : Operator) : o.run.Covers o.demand fun _ => .depth 0 := by
  rcases o.isLocal_or with ho | ⟨w, rfl, hw⟩
  · exact (run_draws ho).covers
  · intro s _
    exact Covers.ofStack (w.operation_covers hw) s rfl

end Operator

end ReversePolish
