/-
Moving items about the stack, and back.

`withTop s n items` is the stack s with other items in the place of its top n. An operation that succeeds on the top n
items leaves such a stack, so what lies below stays where it is, and one equation for each operation says with which
items: `rearrange_ok`, `dupN_ok`, `dropN_ok`, `pick_ok`, `tuckN_ok`, `nipN_ok`. Rolling turns the top part like a wheel:
rolling down is a rotation by one item (`firstToEnd_eq_rotate`), and rolling up takes it back. Results:
- `rearrange_cancels`: two rearrangements of the top part cancel if they do so on lists;
- `times_rearrange`: repeating a rearrangement of the top part repeats it on lists;
- `lastToFront_full_turn`: rolling up as often as there are items is a full turn;
- `shuffles_cancel`: which operations undo which, what each does to the top part, and that the rest stays.
-/
import Mathlib.Data.List.Rotate
import Mathlib.Logic.Function.Iterate
import ReversePolish.Proofs.Stack.Front

namespace ReversePolish.Stack

variable {α β : Type} {n m : Nat} {s t : Stack} {items new : List Value}

/-- other items in the place of the top n -/
def withTop (s : Stack) (n : Nat) (items : List Value) : Stack := { s with items := items ++ s.items.drop n }

/-- the operation again and again -/
def times : Nat → StackM Unit → StackM Unit
  | 0, _ => pure ()
  | k + 1, x => do
    x
    times k x

/-- the operation puts the top n items of s in another order, with none lost and none doubled -/
def Reorders (n : Nat) (order : List Value → List Value) (x : StackM Unit) (s : Stack) : Prop :=
  (order (s.items.take n)).Perm (s.items.take n) ∧ x s = .ok () (s.withTop n (order (s.items.take n)))

/-! ## The stack with other items on top -/

@[simp] theorem withTop_take (s : Stack) (n : Nat) : s.withTop n (s.items.take n) = s := by
  simp [withTop]

theorem take_withTop (h : items.length = m) : (s.withTop n items).items.take m = items := by
  simp [withTop, ← h]

theorem withTop_withTop (h : items.length = m) : (s.withTop n items).withTop m new = s.withTop n new := by
  simp [withTop, ← h]

theorem le_depth_withTop (h : items.length = m) : m ≤ (s.withTop n items).depth := by
  simp [withTop, depth, ← h]

theorem length_top (h : n ≤ s.depth) : (s.items.take n).length = n := List.length_take_of_le h

/-! ## What each operation leaves -/

theorem bind_ok {x : StackM α} {a : α} (f : α → StackM β) (h : x s = .ok a t) : (x >>= f) s = f a t := by
  change EStateM.bind x f s = f a t
  rw [EStateM.bind, h]

/-- without a limit there is always room -/
theorem roomFor_unbounded (grow : Option Nat) (h : s.limit = none) : roomFor grow s = .ok () s := by
  cases grow with
  | none => rfl
  | some k =>
    rcases room_cases s k with ⟨-, hroom⟩ | ⟨l, ⟨hl, -⟩, -⟩
    · exact hroom
    · cases h.symm.trans hl

theorem onFront_ok {grow : Option Nat} {f : List Value → Except StackError (α × List Value)} {a : α} (h : n ≤ s.depth)
    (hroom : roomFor grow s = .ok () s) (hf : f (s.items.take n) = .ok (a, new)) :
    onFront n grow f s = .ok a (s.withTop n new) := by
  rw [onFront_done (Nat.not_lt.2 h) hf, replaceFront, bind_ok _ hroom]
  rfl

theorem atPosition_ok {grow : Option Nat} {g : Value → List Value → α × List Value} {v : Value} (h : n ≤ s.depth)
    (hroom : roomFor grow s = .ok () s) (hv : (s.items.take n).getLast? = some v) :
    atPosition n grow g s = .ok (g v (s.items.take n)).1 (s.withTop n (g v (s.items.take n)).2) := by
  have hdeepest : deepest (s.items.take n) = .ok v := by rw [deepest, hv]
  refine onFront_ok h hroom ?_
  rw [hdeepest]
  rfl

theorem rearrange_ok (g : List Value → List Value) (h : n ≤ s.depth) :
    (do need n; onTop n g : StackM Unit) s = .ok () (s.withTop n (g (s.items.take n))) := by
  rw [rearrange_eq]
  exact onFront_ok h rfl rfl

theorem dropN_ok (h : n ≤ s.depth) : dropN n s = .ok () (s.withTop n []) := by
  rw [dropN_eq]
  exact onFront_ok h rfl rfl

theorem nipN_ok {v : Value} (h : n ≤ s.depth) (hv : (s.items.take n).getLast? = some v) :
    nipN n s = .ok v (s.withTop n (s.items.take n).dropLast) := by
  rw [nipN_eq]
  exact atPosition_ok h rfl hv

theorem drop_withTop (v : Value) : drop (s.withTop n (v :: items)) = .ok () (s.withTop n items) := rfl

section Growing

variable (hfree : s.limit = none) (h : n ≤ s.depth)

include hfree h

theorem dupN_ok : dupN n s = .ok () (s.withTop n (s.items.take n ++ s.items.take n)) := by
  rw [dupN_eq]
  exact onFront_ok h (roomFor_unbounded _ hfree) rfl

theorem pick_ok {v : Value} (hv : (s.items.take n).getLast? = some v) :
    pick n s = .ok () (s.withTop n (v :: s.items.take n)) := by
  rw [pick_eq]
  exact atPosition_ok h (roomFor_unbounded _ hfree) hv

theorem tuckN_ok {v : Value} {rest : List Value} (htop : s.items.take n = v :: rest) :
    tuckN n s = .ok () (s.withTop n (s.items.take n ++ [v])) := by
  have hdeepest : (s.items.take n).getLast? = some (rest.getLast?.getD v) := by rw [htop, List.getLast?_cons]
  have htaken : (s.items.take n).take 1 = [v] := by rw [htop]; rfl
  rw [tuckN_eq, atPosition_ok h (roomFor_unbounded _ hfree) hdeepest, htaken]

end Growing

/-! ## Rearrangements on lists and on the stack -/

theorem firstToEnd_eq_rotate (items : List Value) : firstToEnd items = items.rotate 1 := by
  cases items with
  | nil => rfl
  | cons v rest => simp [firstToEnd]

theorem lastToFront_eq_rotate (items : List Value) : lastToFront items = items.rotate (items.length - 1) := by
  rcases List.eq_nil_or_concat items with rfl | ⟨init, v, rfl⟩
  · rfl
  · rw [List.concat_eq_append, lastToFront_concat, List.length_append, List.length_singleton, Nat.add_sub_cancel,
      List.rotate_append_length_eq]
    rfl

theorem lastToFront_firstToEnd (items : List Value) : lastToFront (firstToEnd items) = items := by
  cases items with
  | nil => rfl
  | cons v rest => exact lastToFront_concat rest v

theorem firstToEnd_lastToFront (items : List Value) : firstToEnd (lastToFront items) = items := by
  rcases List.eq_nil_or_concat items with rfl | ⟨init, v, rfl⟩
  · rfl
  · rw [List.concat_eq_append, lastToFront_concat]
    rfl

/-- as many rotations by one item as there are items come back to the start, and so does taking each of them back -/
theorem lastToFront_full_turn (items : List Value) : lastToFront^[max items.length 1] items = items := by
  have hturns (k : Nat) : firstToEnd^[k] items = items.rotate k := by
    induction k with
    | zero => simp
    | succ k ih => rw [Function.iterate_succ_apply', ih, firstToEnd_eq_rotate, List.rotate_rotate]
  have hfull : firstToEnd^[max items.length 1] items = items := by
    rw [hturns]
    cases items with
    | nil => rfl
    | cons v rest =>
      have hmany : max (v :: rest).length 1 = (v :: rest).length := Nat.max_eq_left (by simp)
      rw [hmany, List.rotate_length]
  have hback : Function.LeftInverse lastToFront firstToEnd := lastToFront_firstToEnd
  calc lastToFront^[max items.length 1] items
      = lastToFront^[max items.length 1] (firstToEnd^[max items.length 1] items) := by rw [hfull]
    _ = items := hback.iterate _ items

/-- a second rearrangement that undoes the first on lists undoes it on the stack -/
theorem rearrange_cancels {g g' : List Value → List Value} (hg : ∀ items, (g items).length = items.length)
    (hcancel : ∀ items, g' (g items) = items) (h : n ≤ s.depth) :
    (do (do need n; onTop n g); (do need n; onTop n g') : StackM Unit) s = .ok () s := by
  have hlength : (g (s.items.take n)).length = n := (hg _).trans (length_top h)
  rw [bind_ok _ (rearrange_ok g h), rearrange_ok g' (le_depth_withTop hlength), take_withTop hlength, hcancel,
    withTop_withTop hlength, withTop_take]

/-- the step is one more rearrangement of the same top part, which stays n items long -/
theorem times_rearrange {g : List Value → List Value} (hg : ∀ items, (g items).length = items.length) (k : Nat)
    (h : n ≤ s.depth) :
    times k (do need n; onTop n g) s = .ok () (s.withTop n (g^[k] (s.items.take n))) := by
  induction k generalizing s with
  | zero =>
    rw [Function.iterate_zero, id_eq, withTop_take]
    rfl
  | succ k ih =>
    have hlength : (g (s.items.take n)).length = n := (hg _).trans (length_top h)
    rw [times, bind_ok _ (rearrange_ok g h), ih (le_depth_withTop hlength), take_withTop hlength,
      withTop_withTop hlength, Function.iterate_succ_apply]

/-! ## Which operations undo which -/

theorem reorders_reverse (h : n ≤ s.depth) : Reorders n List.reverse (reverseN n) s :=
  ⟨List.reverse_perm _, rearrange_ok List.reverse h⟩

theorem reverseN_reverseN (h : n ≤ s.depth) : (do reverseN n; reverseN n : StackM Unit) s = .ok () s :=
  rearrange_cancels (fun _ => List.length_reverse) List.reverse_reverse h

theorem reorders_rollDown (h : n ≤ s.depth) : Reorders n (·.rotate 1) (rollDownN n) s := by
  have hroll := rearrange_ok firstToEnd h
  rw [firstToEnd_eq_rotate] at hroll
  exact ⟨List.rotate_perm _ 1, hroll⟩

theorem reorders_rollUp (h : n ≤ s.depth) : Reorders n (·.rotate (n - 1)) (rollUpN n) s := by
  have hroll := rearrange_ok lastToFront h
  rw [lastToFront_eq_rotate, length_top h] at hroll
  exact ⟨List.rotate_perm _ (n - 1), hroll⟩

theorem rollUpN_full_turn (h : n ≤ s.depth) : times (max n 1) (rollUpN n) s = .ok () s := by
  have hturn := lastToFront_full_turn (s.items.take n)
  rw [length_top h] at hturn
  have hrun := times_rearrange length_lastToFront (max n 1) h
  rw [hturn, withTop_take] at hrun
  exact hrun

theorem dupN_dropN (hfree : s.limit = none) (h : n ≤ s.depth) : (do dupN n; dropN n : StackM Unit) s = .ok () s := by
  have hcopied : s.withTop n (s.items.take n ++ s.items.take n) = { s with items := s.items.take n ++ s.items } := by
    simp [withTop]
  have hdeep : n ≤ depth { s with items := s.items.take n ++ s.items } := by
    simp only [depth, List.length_append, length_top h]
    omega
  rw [bind_ok _ (dupN_ok hfree h), hcopied, dropN_ok hdeep]
  simp [withTop, length_top h]

theorem pick_drop {v : Value} (hfree : s.limit = none) (h : n ≤ s.depth) (hv : (s.items.take n).getLast? = some v) :
    (do pick n; drop : StackM Unit) s = .ok () s := by
  rw [bind_ok _ (pick_ok hfree h hv), drop_withTop, withTop_take]

/-- the copy stands below the top n, so it is the deepest of the top n + 1 -/
theorem tuckN_nipN {v : Value} {rest : List Value} (hfree : s.limit = none) (h : n ≤ s.depth)
    (htop : s.items.take n = v :: rest) : (do tuckN n; nipN (n + 1) : StackM Value) s = .ok v s := by
  have hlength : (s.items.take n ++ [v]).length = n + 1 := by
    rw [List.length_append, length_top h, List.length_singleton]
  have hdeepest : ((s.withTop n (s.items.take n ++ [v])).items.take (n + 1)).getLast? = some v := by
    rw [take_withTop hlength, List.getLast?_concat]
  rw [bind_ok _ (tuckN_ok hfree h htop), nipN_ok (le_depth_withTop hlength) hdeepest, take_withTop hlength,
    withTop_withTop hlength, List.dropLast_concat, withTop_take]

/-- **Moving items about can be undone.** Take a stack without a limit and n of its items, from the top. Rolling up and
rolling down are inverse in both orders, and n rolls up, or one if n is zero, change nothing. Nor does reversing twice,
copying the top n and dropping them, copying one of them and dropping it, tucking the top in below them and taking it
out again, or swapping twice. Each operation puts other items in the place of the top n, of the top 2 for a swap, and
leaves what lies below; those that only move items give each of the items once. -/
theorem shuffles_cancel (s : Stack) (n : Nat) (hfree : s.limit = none) (h : n ≤ s.depth) :
    let top := s.items.take n
    (Reorders n (·.rotate (n - 1)) (rollUpN n) s ∧ Reorders n (·.rotate 1) (rollDownN n) s ∧
      (do rollUpN n; rollDownN n : StackM Unit) s = .ok () s ∧ (do rollDownN n; rollUpN n : StackM Unit) s = .ok () s ∧
      times (max n 1) (rollUpN n) s = .ok () s) ∧
    (Reorders n List.reverse (reverseN n) s ∧ (do reverseN n; reverseN n : StackM Unit) s = .ok () s) ∧
    (dupN n s = .ok () (s.withTop n (top ++ top)) ∧ dropN n s = .ok () (s.withTop n []) ∧
      (do dupN n; dropN n : StackM Unit) s = .ok () s) ∧
    (1 ≤ n → ∃ first last, top.head? = some first ∧ top.getLast? = some last ∧
      pick n s = .ok () (s.withTop n (last :: top)) ∧ drop s = .ok () (s.withTop n top.tail) ∧
      (do pick n; drop : StackM Unit) s = .ok () s ∧
      tuckN n s = .ok () (s.withTop n (top ++ [first])) ∧ nipN n s = .ok last (s.withTop n top.dropLast) ∧
      (do tuckN n; nipN (n + 1) : StackM Value) s = .ok first s) ∧
    (2 ≤ s.depth → Reorders 2 List.reverse swap s ∧ (do swap; swap : StackM Unit) s = .ok () s) := by
  intro top
  refine ⟨⟨reorders_rollUp h, reorders_rollDown h, ?_, ?_, rollUpN_full_turn h⟩,
    ⟨reorders_reverse h, reverseN_reverseN h⟩, ⟨dupN_ok hfree h, dropN_ok h, dupN_dropN hfree h⟩, ?_, ?_⟩
  · exact rearrange_cancels length_lastToFront firstToEnd_lastToFront h
  · exact rearrange_cancels length_firstToEnd lastToFront_firstToEnd h
  · intro hone
    obtain ⟨first, rest, htop⟩ : ∃ first rest, top = first :: rest := by
      apply List.exists_cons_of_length_pos
      rw [length_top h]
      exact hone
    have hlast : top.getLast? = some (rest.getLast?.getD first) := by rw [htop, List.getLast?_cons]
    have hdrop : drop s = .ok () (s.withTop n top.tail) := by
      have hsplit : s.withTop n (first :: rest) = s := by rw [← htop, withTop_take]
      rw [htop, List.tail_cons, ← drop_withTop first, hsplit]
    refine ⟨first, _, by rw [htop]; rfl, hlast, pick_ok hfree h hlast, hdrop, pick_drop hfree h hlast, ?_, ?_, ?_⟩
    · exact tuckN_ok hfree h htop
    · exact nipN_ok h hlast
    · exact tuckN_nipN hfree h htop
  · intro htwo
    exact ⟨reorders_reverse htwo, reverseN_reverseN htwo⟩

/-- three items of different kinds over a fourth: three rolls up are a full turn, and the item tucked in below the three
comes out as the former top -/
theorem shuffles_cancel_three :
    let s : Stack := { items := [.integer 7, .string "a", .boolean true, .double 0.5] }
    s.limit = none ∧ 3 ≤ s.depth ∧ times 3 (rollUpN 3) s = .ok () s ∧
      (do tuckN 3; nipN 4 : StackM Value) s = .ok (.integer 7) s := by
  intro s
  obtain ⟨⟨-, -, -, -, hturn⟩, -, -, hsome, -⟩ := shuffles_cancel s 3 rfl (by decide)
  obtain ⟨first, last, hfirst, -, -, -, -, -, -, htuck⟩ := hsome (by decide)
  cases hfirst
  exact ⟨rfl, by decide, hturn, htuck⟩

end ReversePolish.Stack
