/-
Operations on the top of the stack.

`onFront n grow f` hands the top n items to `f`, which refuses them or gives a result and the items that take their
place; where the operation grows the stack, the room is checked. `atPosition` is the same through the deepest of the top
items. Every operation on a top part is of this form, with one equation for each, so that what holds of `onFront` holds
of all of them. The operations on the whole stack are not of this form.
-/
import ReversePolish.Stack.Shuffle

namespace ReversePolish.Stack

variable {α : Type} {n : Nat} {s : Stack}

/-! ## Checks -/

theorem get_bind (f : Stack → StackM α) (s : Stack) : (get >>= f) s = f s s := rfl

/-- so many more items fit under the limit -/
def Fits (s : Stack) (n : Nat) : Prop := ∀ l, s.limit = some l → s.depth + n ≤ l

/-- the only operation that looks at the limit -/
theorem room_cases (s : Stack) (n : Nat) :
    s.Fits n ∧ room n s = .ok () s ∨ ∃ l, (s.limit = some l ∧ ¬ s.Fits n) ∧ room n s = .error (.overflow l) s := by
  cases hl : s.limit with
  | none =>
    refine .inl ⟨fun l h => absurd (hl.symm.trans h) (by simp), ?_⟩
    rw [room, get_bind, hl]
    rfl
  | some l =>
    have hroom : room n s = if l < s.depth + n then .error (.overflow l) s else .ok () s := by
      rw [room, get_bind, hl]
      dsimp only
      split <;> rfl
    by_cases hfull : l < s.depth + n
    · refine .inr ⟨l, ⟨rfl, fun h => ?_⟩, hroom.trans (if_pos hfull)⟩
      have hle := h l hl
      omega
    · refine .inl ⟨fun l' hl' => ?_, hroom.trans (if_neg hfull)⟩
      cases hl.symm.trans hl'
      omega

/-- the check of the room leaves the stack as it is -/
theorem room_bind_congr {x y : StackM α} (h : x s = y s) :
    (do room n; x : StackM α) s = (do room n; y : StackM α) s := by
  change EStateM.bind (room n) (fun _ => x) s = EStateM.bind (room n) (fun _ => y) s
  unfold EStateM.bind
  rcases room_cases s n with ⟨-, hroom⟩ | ⟨l, -, hroom⟩
  · rw [hroom]
    exact h
  · rw [hroom]

/-- a value is pushed, unless the stack is full -/
theorem push_cases (v : Value) (s : Stack) :
    s.Fits 1 ∧ push v s = .ok () { s with items := v :: s.items } ∨
      ∃ l, (s.limit = some l ∧ ¬ s.Fits 1) ∧ push v s = .error (.overflow l) s := by
  change _ ∧ EStateM.bind (room 1) _ s = _ ∨ ∃ l, _ ∧ EStateM.bind (room 1) _ s = _
  unfold EStateM.bind
  rcases room_cases s 1 with ⟨hfits, hroom⟩ | ⟨l, hfull, hroom⟩
  · rw [hroom]
    exact .inl ⟨hfits, rfl⟩
  · rw [hroom]
    exact .inr ⟨l, hfull, rfl⟩

theorem need_bind (x : StackM α) (s : Stack) :
    (do need n; x : StackM α) s = if s.depth < n then .error (.underflow n s.depth) s else x s := by
  have hneed : need n s = if s.depth < n then .error (.underflow n s.depth) s else .ok () s := by
    rw [need, get_bind]
    split <;> rfl
  change EStateM.bind (need n) (fun _ => x) s = _
  rw [EStateM.bind, hneed]
  by_cases h : s.depth < n
  · simp only [if_pos h]
  · simp only [if_neg h]

theorem peek_short (h : s.depth < n) : peek n s = .error (.underflow n s.depth) s := by
  have hnone : s.items[n - 1]? = none := List.getElem?_eq_none (by unfold depth at h; omega)
  unfold peek
  dsimp only
  rw [if_neg (by omega), get_bind, hnone]
  rfl

theorem peek_found {v : Value} (hn : n ≠ 0) (hv : s.items[n - 1]? = some v) : peek n s = .ok v s := by
  unfold peek
  dsimp only
  rw [if_neg hn, get_bind, hv]
  rfl

/-! ## Acting on the top items -/

/-- room for more items, if the operation asks for it -/
def roomFor : Option Nat → StackM Unit
  | none => pure ()
  | some n => room n

theorem roomFor_cases (grow : Option Nat) (s : Stack) :
    roomFor grow s = .ok () s ∨ ∃ l, roomFor grow s = .error (.overflow l) s := by
  cases grow with
  | none => exact .inl rfl
  | some n => exact (room_cases s n).imp And.right fun ⟨l, _, hroom⟩ => ⟨l, hroom⟩

/-- puts items in the place of the top n, with a result -/
def replaceFront (n : Nat) (grow : Option Nat) (a : α) (items : List Value) : StackM α := do
  roomFor grow
  modifyItems fun all => items ++ all.drop n
  pure a

theorem replaceFront_none (a : α) (items : List Value) (s : Stack) :
    replaceFront n none a items s = .ok a { s with items := items ++ s.items.drop n } := rfl

/-- acts on the top n items -/
def onFront (n : Nat) (grow : Option Nat) (f : List Value → Except StackError (α × List Value)) : StackM α := fun s =>
  if s.depth < n then .error (.underflow n s.depth) s
  else
    match f (s.items.take n) with
    | .error e => .error e s
    | .ok (a, items) => replaceFront n grow a items s

/-- a single item, through a view of it -/
def taken (view : Value → Except StackError α) : List Value → Except StackError (α × List Value)
  | [] => .error .zeroIndex
  | v :: _ => (view v).map (·, [])

/-- what a view makes of an item, or a mismatch with the kind it stands for -/
def seen (kind : Kind) (view : Value → Option α) (v : Value) : Except StackError α :=
  match view v with
  | some a => .ok a
  | none => .error (.typeMismatch kind v.kind)

/-- the deepest of some items; there is none at position zero -/
def deepest (items : List Value) : Except StackError Value :=
  match items.getLast? with
  | some v => .ok v
  | none => .error .zeroIndex

/-- acts on the top n items through the deepest of them -/
def atPosition (n : Nat) (grow : Option Nat) (g : Value → List Value → α × List Value) : StackM α :=
  onFront n grow fun items => (deepest items).map fun v => g v items

section OnFront

variable {grow : Option Nat} {f : List Value → Except StackError (α × List Value)}

theorem onFront_short (h : s.depth < n) : onFront n grow f s = .error (.underflow n s.depth) s := if_pos h

theorem onFront_refused {e : StackError} (h : ¬ s.depth < n) (hf : f (s.items.take n) = .error e) :
    onFront n grow f s = .error e s := by
  unfold onFront
  rw [if_neg h, hf]

theorem onFront_done {a : α} {items : List Value} (h : ¬ s.depth < n) (hf : f (s.items.take n) = .ok (a, items)) :
    onFront n grow f s = replaceFront n grow a items s := by
  unfold onFront
  rw [if_neg h, hf]

theorem deepest_take (hn : n ≠ 0) (h : ¬ s.depth < n) :
    ∃ v, s.items[n - 1]? = some v ∧ deepest (s.items.take n) = .ok v := by
  have hlt : n - 1 < s.items.length := by
    unfold depth at h
    omega
  refine ⟨s.items[n - 1], List.getElem?_eq_getElem hlt, ?_⟩
  unfold deepest
  rw [List.getLast?_take, if_neg hn, List.getElem?_eq_getElem hlt]
  rfl

theorem atPosition_found {g : Value → List Value → α × List Value} {v : Value} (h : ¬ s.depth < n)
    (hv : deepest (s.items.take n) = .ok v) :
    atPosition n grow g s = replaceFront n grow (g v (s.items.take n)).1 (g v (s.items.take n)).2 s := by
  refine onFront_done h ?_
  rw [hv]
  rfl

/-- a step that goes on with the item at a position, and then changes the items down to it -/
theorem peek_bind {step : Value → StackM α} {g : Value → List Value → α × List Value}
    (h : ∀ (s : Stack) (v : Value), n ≠ 0 → ¬ s.depth < n →
      step v s = replaceFront n grow (g v (s.items.take n)).1 (g v (s.items.take n)).2 s) :
    (peek n >>= step) = atPosition n grow g := by
  funext s
  change EStateM.bind (peek n) step s = _
  rcases Nat.eq_zero_or_pos n with rfl | hpos
  · rfl
  · have hn := Nat.ne_of_gt hpos
    by_cases hshort : s.depth < n
    · rw [EStateM.bind, peek_short hshort]
      exact (onFront_short hshort).symm
    · obtain ⟨v, hv, hdeepest⟩ := deepest_take hn hshort
      rw [EStateM.bind, peek_found hn hv, atPosition_found hshort hdeepest]
      exact h s v hn hshort

/-- a step that checks a position, and then changes the items down to it -/
theorem position_bind {x : StackM α} {g : Value → List Value → α × List Value}
    (h : ∀ (s : Stack) (v : Value), n ≠ 0 → ¬ s.depth < n → deepest (s.items.take n) = .ok v →
      x s = replaceFront n grow (g v (s.items.take n)).1 (g v (s.items.take n)).2 s) :
    (do position n; x) = atPosition n grow g := by
  funext s
  unfold position
  rcases Nat.eq_zero_or_pos n with rfl | hpos
  · rfl
  · have hn := Nat.ne_of_gt hpos
    dsimp only
    rw [if_neg hn, need_bind]
    by_cases hshort : s.depth < n
    · rw [if_pos hshort]
      exact (onFront_short hshort).symm
    · obtain ⟨v, -, hdeepest⟩ := deepest_take hn hshort
      rw [if_neg hshort, atPosition_found hshort hdeepest]
      exact h s v hn hshort hdeepest

end OnFront

/-! ## Rolling -/

theorem lastToFront_concat (items : List Value) (v : Value) : lastToFront (items ++ [v]) = v :: items := by
  cases items with
  | nil => rfl
  | cons w rest =>
    change (w :: rest ++ [v]).getLastD w :: (w :: rest ++ [v]).dropLast = _
    rw [List.dropLast_concat, List.getLastD_concat]

theorem length_lastToFront (items : List Value) : (lastToFront items).length = items.length := by
  cases items with
  | nil => rfl
  | cons v rest => simp [lastToFront]

theorem length_firstToEnd (items : List Value) : (firstToEnd items).length = items.length := by
  cases items with
  | nil => rfl
  | cons v rest => simp [firstToEnd]

/-! ## Equations -/

theorem push_eq (v : Value) : push v = onFront 0 (some 1) fun _ => .ok ((), [v]) := by
  funext s
  rfl

theorem popWith_eq (kind : Kind) (view : Value → Option α) :
    popWith kind view = onFront 1 none (taken (seen kind view)) := by
  funext ⟨items, limit⟩
  cases items with
  | nil => rfl
  | cons v rest =>
    have hdeep : ¬ depth ⟨v :: rest, limit⟩ < 1 := by simp [depth]
    change EStateM.bind (viewed kind view v) _ _ = _
    unfold EStateM.bind viewed
    cases hview : view v with
    | none =>
      have hseen : taken (seen kind view) [v] = .error (.typeMismatch kind v.kind) := by
        rw [taken, seen, hview]
        rfl
      exact (onFront_refused hdeep hseen).symm
    | some a =>
      have hseen : taken (seen kind view) [v] = .ok (a, []) := by
        rw [taken, seen, hview]
        rfl
      rw [onFront_done hdeep hseen]
      rfl

/-- pops the top and computes with it -/
theorem popThen_eq (f : Value → α) : (do return f (← pop)) = onFront 1 none (taken fun v => .ok (f v)) := by
  funext ⟨items, limit⟩
  cases items with
  | nil => rfl
  | cons v rest =>
    have hdeep : ¬ depth ⟨v :: rest, limit⟩ < 1 := by simp [depth]
    rw [onFront_done hdeep rfl]
    rfl

theorem pop_eq : pop = onFront 1 none (taken .ok) := by
  rw [← bind_pure pop]
  exact popThen_eq id

theorem popN_eq (n : Nat) : popN n = onFront n none fun items => .ok (items.reverse, []) := by
  funext s
  unfold popN
  rw [need_bind]
  rfl

theorem popN_ok {n : Nat} {items : List Value} (hn : n ≤ items.length) (limit : Option Nat) :
    popN n ⟨items, limit⟩ = .ok (items.take n).reverse ⟨items.drop n, limit⟩ := by
  rw [popN_eq, onFront_done (Nat.not_lt.2 hn) rfl]
  rfl

theorem dropN_eq (n : Nat) : dropN n = onFront n none fun _ => .ok ((), []) := by
  funext s
  unfold dropN
  rw [need_bind]
  rfl

/-- a rearrangement of the top items -/
theorem rearrange_eq (n : Nat) (g : List Value → List Value) :
    (do need n; onTop n g) = onFront n none fun items => .ok ((), g items) := by
  funext s
  rw [need_bind]
  rfl

theorem dupN_eq (n : Nat) : dupN n = onFront n (some n) fun items => .ok ((), items ++ items) := by
  funext s
  unfold dupN
  rw [need_bind]
  split
  · rename_i h
    rw [onFront_short h]
  · rename_i h
    rw [onFront_done h rfl]
    refine room_bind_congr ?_
    change EStateM.Result.ok () { s with items := s.items.take n ++ s.items } =
      .ok () { s with items := s.items.take n ++ s.items.take n ++ s.items.drop n }
    rw [List.append_assoc, List.take_append_drop]

theorem peek_eq (n : Nat) : peek n = atPosition n none fun v items => (v, items) := by
  rw [← bind_pure (peek n)]
  refine peek_bind fun s v _ _ => ?_
  rw [replaceFront_none, List.take_append_drop]
  rfl

theorem pick_eq (n : Nat) : pick n = atPosition n (some 1) fun v items => ((), v :: items) := by
  refine peek_bind fun s v _ _ => room_bind_congr ?_
  change EStateM.Result.ok () { s with items := v :: s.items } =
    .ok () { s with items := v :: (s.items.take n ++ s.items.drop n) }
  rw [List.take_append_drop]

theorem nipN_eq (n : Nat) : nipN n = atPosition n none fun v items => (v, items.dropLast) := by
  refine peek_bind fun s v hn hdeep => ?_
  have herased : s.items.eraseIdx (n - 1) = (s.items.take n).dropLast ++ s.items.drop n := by
    unfold depth at hdeep
    rw [List.eraseIdx_eq_take_drop_succ, List.dropLast_eq_take, List.length_take, List.take_take,
      Nat.sub_add_cancel (Nat.pos_of_ne_zero hn)]
    congr 2
    omega
  rw [replaceFront_none, ← herased]
  rfl

theorem replace_eq (n : Nat) (v : Value) :
    replace n v = atPosition n none fun _ items => ((), items.dropLast ++ [v]) := by
  refine position_bind fun s w hn hdeep _ => ?_
  have hset : s.items.set (n - 1) v = (s.items.take n).dropLast ++ [v] ++ s.items.drop n := by
    unfold depth at hdeep
    rw [List.set_eq_take_append_cons_drop, if_pos (by omega), List.dropLast_eq_take, List.length_take, List.take_take,
      Nat.sub_add_cancel (Nat.pos_of_ne_zero hn), List.append_assoc]
    congr 2
    omega
  rw [replaceFront_none, ← hset]
  rfl

theorem tuckN_eq (n : Nat) : tuckN n = atPosition n (some 1) fun _ items => ((), items ++ items.take 1) :=
  position_bind fun _ _ _ _ _ => room_bind_congr rfl

end ReversePolish.Stack
