/-
The limit of a stack along any calls.

An operation is guarded if it leaves the stack as it was when it fails, and keeps the limit and stays within it when it
succeeds. Results:
- `onFront_guarded`: an operation on a top part is guarded if it gives no more items than it takes and has room for;
- `Call.run_guarded`, `runCalls_within`: every call is guarded, so no sequence of calls leaves a stack over its limit;
- `limit_holds_along_calls`: the same from an empty stack, and no call on the way has an index out of range.
-/
import ReversePolish.Proofs.Stack.Row

namespace ReversePolish.Stack

variable {α β : Type} {n : Nat} {grow : Option Nat}

/-- a result on the stack s: a failure leaves s, and a success keeps the limit, and stays within it if s is -/
def Guards (s : Stack) : EStateM.Result StackError Stack α → Prop
  | .ok _ t => t.limit = s.limit ∧ (s.Fits 0 → t.Fits 0)
  | .error _ t => t = s

def Guarded (x : StackM α) : Prop := ∀ s : Stack, Guards s (x s)

/-! ## Operations on a top part -/

/-- an operation that leaves no more items than there were -/
theorem Guards.shorter {s : Stack} (a : α) {items : List Value} (h : items.length ≤ s.depth) :
    Guards s (.ok a { s with items }) := by
  refine ⟨rfl, fun hwithin l hl => ?_⟩
  have hle := hwithin l hl
  change items.length + 0 ≤ l
  omega

theorem replaceFront_guards {s : Stack} (hdeep : ¬ s.depth < n) (a : α) {items : List Value}
    (hitems : items.length ≤ n + grow.getD 0) : Guards s (replaceFront n grow a items s) := by
  have hlength : (items ++ s.items.drop n).length + n = items.length + s.depth := by
    unfold depth at hdeep ⊢
    simp only [List.length_append, List.length_drop]
    omega
  cases grow with
  | none =>
    simp only [Option.getD_none] at hitems
    rw [replaceFront_none]
    exact .shorter a (by omega)
  | some k =>
    change Guards s (EStateM.bind (room k) _ s)
    unfold EStateM.bind
    rcases room_cases s k with ⟨hfits, hroom⟩ | ⟨l, -, hroom⟩
    · rw [hroom]
      refine ⟨rfl, fun _ l hl => ?_⟩
      have hle := hfits l hl
      simp only [Option.getD_some] at hitems
      change (items ++ s.items.drop n).length + 0 ≤ l
      omega
    · rw [hroom]
      exact rfl

/-- an operation on a top part that gives no more items than it takes and has room for -/
theorem onFront_guarded {f : List Value → Except StackError (α × List Value)}
    (hf : ∀ items a new, items.length = n → f items = .ok (a, new) → new.length ≤ n + grow.getD 0) :
    Guarded (onFront n grow f) := by
  intro s
  by_cases hshort : s.depth < n
  · rw [onFront_short hshort]
    exact rfl
  · have hlength : (s.items.take n).length = n := List.length_take_of_le (Nat.le_of_not_lt hshort)
    rcases hr : f (s.items.take n) with e | ⟨a, new⟩
    · rw [onFront_refused hshort hr]
      exact rfl
    · rw [onFront_done hshort hr]
      exact replaceFront_guards hshort a (hf _ a new hlength hr)

/-- what is computed from a result comes from one -/
theorem exists_of_map_eq_ok {x : Except StackError α} {f : α → β} {b : β} (h : x.map f = .ok b) :
    ∃ a, x = .ok a ∧ f a = b := by
  rcases x with e | a
  · cases h
  · exact ⟨a, rfl, Except.ok.inj h⟩

theorem atPosition_guarded {g : Value → List Value → α × List Value}
    (hg : ∀ v items, items ≠ [] → items.length = n → (g v items).2.length ≤ n + grow.getD 0) :
    Guarded (atPosition n grow g) := by
  refine onFront_guarded fun items a new hlength h => ?_
  obtain ⟨v, hv, hnew⟩ := exists_of_map_eq_ok h
  have hne : items ≠ [] := by
    rintro rfl
    cases hv
  have hle := hg v items hne hlength
  rw [hnew] at hle
  exact hle

/-- taking an item leaves nothing in its place -/
theorem taken_eq_nil {view : Value → Except StackError α} {items new : List Value} {a : α}
    (h : taken view items = .ok (a, new)) : new = [] := by
  rcases items with _ | ⟨v, rest⟩
  · cases h
  · obtain ⟨b, -, hb⟩ := exists_of_map_eq_ok h
    cases hb
    rfl

/-! ## Every operation -/

namespace Guarded

/-- computing with the result changes nothing -/
theorem andThen {x : StackM α} (h : Guarded x) (f : α → β) : Guarded (do return f (← x)) := by
  intro s
  have hs := h s
  change Guards s (EStateM.bind x (fun a => pure (f a)) s)
  unfold EStateM.bind
  rcases hx : x s with ⟨a, t⟩ | ⟨e, t⟩
  · rw [hx] at hs
    exact hs
  · rw [hx] at hs
    exact hs

/-- an operation that only looks, or fails -/
theorem ofStill {x : StackM α} (h : ∀ s, (∃ a, x s = .ok a s) ∨ ∃ e, x s = .error e s) : Guarded x := by
  intro s
  rcases h s with ⟨a, hx⟩ | ⟨e, hx⟩
  · rw [hx]
    exact ⟨rfl, id⟩
  · rw [hx]
    exact rfl

theorem atDepth {x : Nat → StackM α} (h : ∀ n, Guarded (x n)) : Guarded (do x (← get).depth) := fun s => h s.depth s

theorem push (v : Value) : Guarded (Stack.push v) := by
  rw [push_eq]
  refine onFront_guarded fun items a new _ h => ?_
  cases h
  simp

theorem popWith (kind : Kind) (view : Value → Option α) : Guarded (Stack.popWith kind view) := by
  rw [popWith_eq]
  refine onFront_guarded fun items a new _ h => ?_
  simp [taken_eq_nil h]

theorem pop : Guarded Stack.pop := by
  rw [pop_eq]
  refine onFront_guarded fun items a new _ h => ?_
  simp [taken_eq_nil h]

theorem popN (n : Nat) : Guarded (Stack.popN n) := by
  rw [popN_eq]
  refine onFront_guarded fun items a new _ h => ?_
  cases h
  simp

theorem dropN (n : Nat) : Guarded (Stack.dropN n) := by
  rw [dropN_eq]
  refine onFront_guarded fun items a new _ h => ?_
  cases h
  simp

theorem dupN (n : Nat) : Guarded (Stack.dupN n) := by
  rw [dupN_eq]
  refine onFront_guarded fun items a new hlength h => ?_
  cases h
  simp [hlength]

/-- a rearrangement of the top items -/
theorem rearrange {g : List Value → List Value} (hg : ∀ items, (g items).length = items.length) :
    Guarded (do need n; onTop n g) := by
  rw [rearrange_eq]
  refine onFront_guarded fun items a new hlength h => ?_
  cases h
  simp [hg, hlength]

theorem rollUpN (n : Nat) : Guarded (Stack.rollUpN n) := rearrange length_lastToFront

theorem rollDownN (n : Nat) : Guarded (Stack.rollDownN n) := rearrange length_firstToEnd

theorem peek_still (n : Nat) (s : Stack) : (∃ v, Stack.peek n s = .ok v s) ∨ ∃ e, Stack.peek n s = .error e s := by
  rcases Nat.eq_zero_or_pos n with rfl | hpos
  · exact .inr ⟨.zeroIndex, rfl⟩
  · have hn := Nat.ne_of_gt hpos
    by_cases hshort : s.depth < n
    · exact .inr ⟨_, peek_short hshort⟩
    · obtain ⟨v, hv, -⟩ := deepest_take hn hshort
      exact .inl ⟨v, peek_found hn hv⟩

theorem peek (n : Nat) : Guarded (Stack.peek n) := ofStill (peek_still n)

theorem viewed_still (kind : Kind) (view : Value → Option α) (v : Value) (s : Stack) :
    (∃ a, viewed kind view v s = .ok a s) ∨ ∃ e, viewed kind view v s = .error e s := by
  unfold viewed
  rcases view v with _ | a
  · exact .inr ⟨_, rfl⟩
  · exact .inl ⟨a, rfl⟩

theorem peekWith (kind : Kind) (view : Value → Option α) (n : Nat) : Guarded (Stack.peekWith kind view n) := by
  refine ofStill fun s => ?_
  have hbind : Stack.peekWith kind view n s = EStateM.bind (Stack.peek n) (viewed kind view) s := rfl
  rw [hbind, EStateM.bind]
  rcases peek_still n s with ⟨v, hpeek⟩ | ⟨e, hpeek⟩
  · rw [hpeek]
    exact viewed_still kind view v s
  · rw [hpeek]
    exact .inr ⟨e, rfl⟩

theorem top : Guarded Stack.top := by
  refine ofStill ?_
  rintro ⟨items, limit⟩
  rcases items with _ | ⟨v, rest⟩
  · exact .inr ⟨_, rfl⟩
  · exact .inl ⟨v, rfl⟩

theorem pick (n : Nat) : Guarded (Stack.pick n) := by
  rw [pick_eq]
  exact atPosition_guarded fun v items _ h => by simp [h]

theorem nipN (n : Nat) : Guarded (Stack.nipN n) := by
  rw [nipN_eq]
  exact atPosition_guarded fun v items _ h => by simp [h]

theorem replace (n : Nat) (v : Value) : Guarded (Stack.replace n v) := by
  rw [replace_eq]
  refine atPosition_guarded fun w items hne h => ?_
  have hpos := List.length_pos_iff.2 hne
  simp only [List.length_append, List.length_dropLast, List.length_singleton, Option.getD_none]
  omega

theorem tuckN (n : Nat) : Guarded (Stack.tuckN n) := by
  rw [tuckN_eq]
  refine atPosition_guarded fun v items _ h => ?_
  simp only [List.length_append, List.length_take, Option.getD_some]
  omega

/-- a change of the whole stack to no more items -/
theorem modifyItems {f : List Value → List Value} (hf : ∀ items, (f items).length ≤ items.length) :
    Guarded (Stack.modifyItems f) := fun s => .shorter () (hf s.items)

theorem reverse : Guarded Stack.reverse := modifyItems fun _ => Nat.le_of_eq List.length_reverse

theorem clear : Guarded Stack.clear := modifyItems fun items => Nat.zero_le items.length

end Guarded

/-! ## Calls -/

theorem Call.run_guarded (c : Call) : Guarded c.run := by
  cases c with
  | push v => exact (Guarded.push v).andThen _
  | pop => exact Guarded.pop.andThen _
  | popN n => exact (Guarded.popN n).andThen _
  | popKind kind => exact (Guarded.popWith kind _).andThen _
  | popAsDouble | popAsBoolean | popAsString => exact (Guarded.pop.andThen _).andThen _
  | top => exact Guarded.top.andThen _
  | peek n => exact (Guarded.peek n).andThen _
  | peekKind kind n => exact (Guarded.peekWith kind _ n).andThen _
  | peekAsDouble n | peekAsBoolean n | peekAsString n => exact ((Guarded.peek n).andThen _).andThen _
  | replace n v => exact (Guarded.replace n v).andThen _
  | swap => exact (Guarded.rearrange fun _ => List.length_reverse).andThen _
  | drop => exact (Guarded.pop.andThen _).andThen _
  | dup => exact (Guarded.pick 1).andThen _
  | copySecond => exact (Guarded.pick 2).andThen _
  | rollUp => exact (Guarded.atDepth Guarded.rollUpN).andThen _
  | rollDown => exact (Guarded.atDepth Guarded.rollDownN).andThen _
  | rotateUp => exact (Guarded.rollUpN 3).andThen _
  | rotateDown => exact (Guarded.rollDownN 3).andThen _
  | reverse => exact Guarded.reverse.andThen _
  | clear => exact Guarded.clear.andThen _
  | dropN n => exact (Guarded.dropN n).andThen _
  | dupN n => exact (Guarded.dupN n).andThen _
  | pick n => exact (Guarded.pick n).andThen _
  | nipN n => exact (Guarded.nipN n).andThen _
  | rollUpN n => exact (Guarded.rollUpN n).andThen _
  | rollDownN n => exact (Guarded.rollDownN n).andThen _
  | tuckN n => exact (Guarded.tuckN n).andThen _
  | reverseN n => exact (Guarded.rearrange fun _ => List.length_reverse).andThen _

/-- a call that fails leaves the stack as it was -/
theorem Call.run_error {c : Call} {s s' : Stack} {e : StackError} (h : c.run s = .error e s') : s' = s := by
  have hc := c.run_guarded s
  rw [h] at hc
  exact hc

/-- one call keeps the limit, and stays within it -/
theorem Call.after_within (c : Call) {s : Stack} (h : s.Fits 0) : (c.after s).limit = s.limit ∧ (c.after s).Fits 0 := by
  have hc := c.run_guarded s
  unfold Call.after
  rcases hrun : c.run s with ⟨r, s'⟩ | ⟨e, s'⟩
  · rw [hrun] at hc
    exact ⟨hc.1, hc.2 h⟩
  · cases Call.run_error hrun
    exact ⟨rfl, h⟩

/-- so do any calls, one after the other -/
theorem runCalls_within (calls : List Call) {s : Stack} (h : s.Fits 0) :
    (runCalls calls s).limit = s.limit ∧ (runCalls calls s).Fits 0 := by
  induction calls generalizing s with
  | nil => exact ⟨rfl, h⟩
  | cons c calls ih =>
    obtain ⟨hlimit, hwithin⟩ := c.after_within h
    obtain ⟨hlimit', hwithin'⟩ := ih hwithin
    exact ⟨hlimit'.trans hlimit, hwithin'⟩

/-- a row that mirrors a stack has no index out of range -/
theorem Mirrors.inRange {x : RowM α} {y : StackM α} (h : Mirrors x y) (s : Stack) (r : Row) :
    x s.row ≠ .error .outOfRange r := by
  rw [h s]
  rcases y s with ⟨a, s'⟩ | ⟨e, s'⟩ <;> simp [onRow]

/-- Whatever is called on a stack with a limit, one call after the other and with any arguments, the depth stays within
the limit. Each call on the way that fails leaves the stack as it was; and it does to the row of the items, where an
index or a difference of lengths can be out of range, what it does to the stack, with none out of range. -/
theorem limit_holds_along_calls (limit : Nat) (calls : List Call) :
    let s := runCalls calls { limit := some limit }
    s.depth ≤ limit ∧
      ∀ c : Call, (∀ e s', c.run s = .error e s' → s' = s) ∧
        c.onRow s.row = onRow (c.run s) ∧ ∀ r, c.onRow s.row ≠ .error .outOfRange r := by
  intro s
  have hempty : Fits { limit := some limit } 0 := fun l _ => Nat.zero_le l
  obtain ⟨hlimit, hwithin⟩ := runCalls_within calls hempty
  refine ⟨hwithin limit hlimit, fun c => ⟨fun e s' h => Call.run_error h, ?_, ?_⟩⟩
  · exact c.onRow_mirrors s
  · exact c.onRow_mirrors.inRange s

end ReversePolish.Stack
