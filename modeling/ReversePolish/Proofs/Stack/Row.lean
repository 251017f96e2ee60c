/-
The stack as a row of items that is addressed by indices from the bottom.

On a row the top n items start at the index that is the length less n. Here that difference and every index are checked
where they are used: one that is out of range ends the operation with `outOfRange`, an outcome that the operations of
the stack do not have. Every call is written once more on rows (`Call.onRow`), with the checks of depth and room before
any index as on the stack. Result:
- `Call.onRow_mirrors`: on every stack a call does the same to the row as to the stack, so nothing is out of range.
-/
import ReversePolish.Proofs.Stack.Front
import ReversePolish.Stack.Call

namespace ReversePolish.Stack

structure Row where
  /-- from the bottom up -/
  items : List Value
  limit : Option Nat

inductive RowError where
  /-- an error that the stack reports as well -/
  | reported (e : StackError)
  /-- an index or a difference of lengths is out of range -/
  | outOfRange

/-- operations on a row -/
abbrev RowM := EStateM RowError Row

/-- the items of the stack as a row -/
def row (s : Stack) : Row := ⟨s.bottomUp, s.limit⟩

namespace Row

variable {α β : Type} {n : Nat}

/-! ## Indices -/

def length : RowM Nat := do return (← get).items.length

/-- the difference of two lengths -/
def minus (a b : Nat) : RowM Nat := if b ≤ a then pure (a - b) else throw .outOfRange

/-- hands the items from an index on to a step, which gives the items in their place; the step may find an index among
them to be out of range -/
def splice (i : Nat) (f : List Value → Option (α × List Value)) : RowM α := fun r =>
  if i ≤ r.items.length then
    match f (r.items.drop i) with
    | some (a, items) => .ok a { r with items := r.items.take i ++ items }
    | none => .error .outOfRange r
  else .error .outOfRange r

/-- the same for the items from position n up to the top -/
def fromPosition (n : Nat) (f : List Value → Option (α × List Value)) : RowM α := do
  splice (← minus (← length) n) f

/-- the item at the index -/
def first : List Value → Option (Value × List Value)
  | [] => none
  | v :: rest => some (v, v :: rest)

/-- another item in place of the one at the index -/
def setFirst (v : Value) : List Value → Option (Unit × List Value)
  | [] => none
  | _ :: rest => some ((), v :: rest)

/-- takes out the item at the index -/
def removeFirst : List Value → Option (Value × List Value)
  | [] => none
  | v :: rest => some (v, rest)

/-- the first item moves to the end -/
def rotateLeft : List Value → Option (Unit × List Value)
  | [] => none
  | v :: rest => some ((), rest ++ [v])

/-- the last item moves to the front -/
def rotateRight (items : List Value) : Option (Unit × List Value) :=
  items.getLast?.map fun v => ((), v :: items.dropLast)

/-! ## Operations -/

/-- an error of the stack -/
def report (e : StackError) : RowM α := throw (.reported e)

def need (n : Nat) : RowM Unit := do
  let len ← length
  if len < n then report (.underflow n len)

def room (n : Nat) : RowM Unit := do
  let r ← get
  match r.limit with
  | none => pure ()
  | some limit => if limit < r.items.length + n then report (.overflow limit)

def position (n : Nat) : RowM Unit := do
  if n = 0 then report .zeroIndex
  need n

def push (v : Value) : RowM Unit := do
  room 1
  modify fun r => { r with items := r.items ++ [v] }

def top : RowM Value := do (← get).items.getLast?.elim (report (.underflow 1 0)) pure

def pop : RowM Value := do
  let v ← top
  modify fun r => { r with items := r.items.dropLast }
  pure v

/-- pops the top and computes with it -/
def popAs (f : Value → α) : RowM α := do return f (← pop)

def popN (n : Nat) : RowM (List Value) := do
  need n
  fromPosition n fun top => some (top, [])

def peek (n : Nat) : RowM Value := do
  position n
  fromPosition n first

/-- computes with the item at position n -/
def peekAs (f : Value → α) (n : Nat) : RowM α := do return f (← peek n)

/-- the item, if it is of the kind -/
def ofKind (kind : Kind) (v : Value) : RowM Value :=
  if v.kind = kind then pure v else report (.typeMismatch kind v.kind)

def popKind (kind : Kind) : RowM Value := do
  let _ ← ofKind kind (← top)
  pop

def peekKind (kind : Kind) (n : Nat) : RowM Value := do ofKind kind (← peek n)

def replace (n : Nat) (v : Value) : RowM Unit := do
  position n
  fromPosition n (setFirst v)

def swap : RowM Unit := do
  need 2
  let a ← fromPosition 1 first
  let b ← fromPosition 2 first
  fromPosition 1 (setFirst b)
  fromPosition 2 (setFirst a)

def dropN (n : Nat) : RowM Unit := do
  need n
  fromPosition n fun _ => some ((), [])

def pick (n : Nat) : RowM Unit := do push (← peek n)

def dupN (n : Nat) : RowM Unit := do
  need n
  room n
  fromPosition n fun top => some ((), top ++ top)

def nipN (n : Nat) : RowM Value := do
  position n
  fromPosition n removeFirst

def rollUpN (n : Nat) : RowM Unit := do
  need n
  if 1 < n then fromPosition n rotateLeft

def rollDownN (n : Nat) : RowM Unit := do
  need n
  if 1 < n then fromPosition n rotateRight

def tuckN (n : Nat) : RowM Unit := do
  position n
  room 1
  let v ← fromPosition 1 first
  fromPosition n fun top => some ((), v :: top)

def reverseN (n : Nat) : RowM Unit := do
  need n
  fromPosition n fun top => some ((), top.reverse)

def reverse : RowM Unit := modify fun r => { r with items := r.items.reverse }

def clear : RowM Unit := modify fun r => { r with items := [] }

end Row

/-- a call on a row -/
def Call.onRow : Call → RowM Reply
  | .push v => do Row.push v; return .done
  | .pop => return .value (← Row.pop)
  | .popN n => return .values (← Row.popN n)
  | .popKind kind => return .value (← Row.popKind kind)
  | .popAsDouble => return .double (← Row.popAs Value.asDouble)
  | .popAsBoolean => return .boolean (← Row.popAs Value.asBoolean)
  | .popAsString => return .string (← Row.popAs Value.text)
  | .top => return .value (← Row.top)
  | .peek n => return .value (← Row.peek n)
  | .peekKind kind n => return .value (← Row.peekKind kind n)
  | .peekAsDouble n => return .double (← Row.peekAs Value.asDouble n)
  | .peekAsBoolean n => return .boolean (← Row.peekAs Value.asBoolean n)
  | .peekAsString n => return .string (← Row.peekAs Value.text n)
  | .replace n v => do Row.replace n v; return .done
  | .swap => do Row.swap; return .done
  | .drop => do Row.popAs fun _ => (); return .done
  | .dup => do Row.pick 1; return .done
  | .copySecond => do Row.pick 2; return .done
  | .rollUp => do Row.rollUpN (← Row.length); return .done
  | .rollDown => do Row.rollDownN (← Row.length); return .done
  | .rotateUp => do Row.rollUpN 3; return .done
  | .rotateDown => do Row.rollDownN 3; return .done
  | .reverse => do Row.reverse; return .done
  | .clear => do Row.clear; return .done
  | .dropN n => do Row.dropN n; return .done
  | .dupN n => do Row.dupN n; return .done
  | .pick n => do Row.pick n; return .done
  | .nipN n => return .value (← Row.nipN n)
  | .rollUpN n => do Row.rollUpN n; return .done
  | .rollDownN n => do Row.rollDownN n; return .done
  | .tuckN n => do Row.tuckN n; return .done
  | .reverseN n => do Row.reverseN n; return .done

/-! ## The two sides -/

/-- what an operation on the stack comes to, seen on the row -/
def onRow {α : Type} : EStateM.Result StackError Stack α → EStateM.Result RowError Row α
  | .ok a s => .ok a s.row
  | .error e s => .error (.reported e) s.row

/-- the operation does to the row what the other does to the stack -/
def Mirrors {α : Type} (x : RowM α) (y : StackM α) : Prop := ∀ s : Stack, x s.row = onRow (y s)

namespace Mirrors

variable {α β : Type} {n : Nat}

theorem pure (a : α) : Mirrors (Pure.pure a) (Pure.pure a) := fun _ => rfl

theorem bind {x : RowM α} {y : StackM α} {f : α → RowM β} {g : α → StackM β} (hx : Mirrors x y)
    (hf : ∀ a, Mirrors (f a) (g a)) : Mirrors (x >>= f) (y >>= g) := by
  intro s
  change EStateM.bind x f s.row = onRow (EStateM.bind y g s)
  unfold EStateM.bind
  rw [hx s]
  cases y s with
  | ok a s' => exact hf a s'
  | error e s' => rfl

theorem report (e : StackError) : Mirrors (Row.report e : RowM α) (throw e) := fun _ => rfl

/-- the depth is the length of the row -/
theorem atDepth {x : Nat → RowM α} {y : Nat → StackM α} (h : ∀ n, Mirrors (x n) (y n)) :
    Mirrors (do x (← Row.length)) (do y (← get).depth) := by
  intro s
  have hlength : s.row.items.length = s.depth := List.length_reverse
  change x s.row.items.length s.row = onRow (y s.depth s)
  rw [hlength]
  exact h s.depth s

/-- where the depth suffices, what comes after the check does the same -/
theorem need {x : RowM α} {y : StackM α} (h : ∀ s : Stack, n ≤ s.depth → x s.row = onRow (y s)) :
    Mirrors (do Row.need n; x) (do Stack.need n; y) := by
  intro s
  have hlength : s.row.items.length = s.depth := List.length_reverse
  have hneed : Row.need n s.row =
      if s.depth < n then .error (.reported (.underflow n s.depth)) s.row else .ok () s.row := by
    change (if s.row.items.length < n then Row.report (.underflow n s.row.items.length) else Pure.pure () : RowM Unit)
      s.row = _
    rw [hlength]
    split <;> rfl
  rw [need_bind]
  change EStateM.bind (Row.need n) (fun _ => x) s.row = _
  rw [EStateM.bind, hneed]
  by_cases hshort : s.depth < n
  · simp only [if_pos hshort]
    rfl
  · simp only [if_neg hshort]
    exact h s (Nat.le_of_not_lt hshort)

theorem position {x : RowM α} {y : StackM α} (h : ∀ s : Stack, n ≠ 0 → n ≤ s.depth → x s.row = onRow (y s)) :
    Mirrors (do Row.position n; x) (do Stack.position n; y) := by
  rcases Nat.eq_zero_or_pos n with rfl | hpos
  · exact fun _ => rfl
  · have hn := Nat.ne_of_gt hpos
    unfold Row.position Stack.position
    dsimp only
    rw [if_neg hn, if_neg hn]
    exact need fun s => h s hn

/-- the check of the room leaves the row as it is -/
theorem room {x : RowM α} {y : StackM α} {s : Stack} (h : x s.row = onRow (y s)) :
    (do Row.room n; x : RowM α) s.row = onRow ((do Stack.room n; y : StackM α) s) := by
  obtain ⟨items, limit⟩ := s
  cases limit with
  | none => exact h
  | some l =>
    have hrow : Row.room n (row ⟨items, some l⟩) =
        if l < items.length + n then .error (.reported (.overflow l)) (row ⟨items, some l⟩)
        else .ok () (row ⟨items, some l⟩) := by
      change (if l < items.reverse.length + n then Row.report (.overflow l) else Pure.pure () : RowM Unit) _ = _
      rw [List.length_reverse]
      split <;> rfl
    have hstack : Stack.room n ⟨items, some l⟩ =
        if l < items.length + n then .error (.overflow l) ⟨items, some l⟩ else .ok () ⟨items, some l⟩ := by
      change (if l < items.length + n then throw (.overflow l) else Pure.pure () : StackM Unit) _ = _
      split <;> rfl
    change EStateM.bind (Row.room n) (fun _ => x) _ = onRow (EStateM.bind (Stack.room n) (fun _ => y) _)
    rw [EStateM.bind, EStateM.bind, hrow, hstack]
    by_cases hfull : l < items.length + n
    · simp only [if_pos hfull]
      rfl
    · simp only [if_neg hfull]
      exact h

/-- the top n items start at the index that is the length less n -/
theorem fromPosition_eq {f : List Value → Option (α × List Value)} {s : Stack} (h : n ≤ s.depth) {a : α}
    (items : List Value) (hf : f (s.items.take n).reverse = some (a, items)) :
    Row.fromPosition n f s.row = .ok a (row { s with items := items.reverse ++ s.items.drop n }) := by
  have hlength : s.row.items.length = s.depth := List.length_reverse
  have hindex : s.items.length - (s.depth - n) = n := by
    unfold Stack.depth at h ⊢
    omega
  have hdrop : s.row.items.drop (s.depth - n) = (s.items.take n).reverse := by
    change s.items.reverse.drop _ = _
    rw [List.drop_reverse, hindex]
  have htake : s.row.items.take (s.depth - n) = (s.items.drop n).reverse := by
    change s.items.reverse.take _ = _
    rw [List.take_reverse, hindex]
  have hminus : Row.fromPosition n f s.row = Row.splice (s.depth - n) f s.row := by
    change EStateM.bind (Row.minus s.row.items.length n) (Row.splice · f) s.row = _
    rw [EStateM.bind, hlength, Row.minus, if_pos h]
    rfl
  rw [hminus, Row.splice, if_pos (by rw [hlength]; omega), hdrop, htake, hf]
  simp [row, bottomUp]

theorem push (v : Value) : Mirrors (Row.push v) (Stack.push v) := by
  intro s
  refine room ?_
  change EStateM.Result.ok () (⟨s.items.reverse ++ [v], s.limit⟩ : Row) = .ok () ⟨(v :: s.items).reverse, s.limit⟩
  rw [List.reverse_cons]

/-- a step on the row that takes the last item, where the stack takes the first -/
theorem last {x : Value → RowM α} {y : Value → StackM α}
    (h : ∀ v rest limit, x v (row ⟨v :: rest, limit⟩) = onRow (y v ⟨v :: rest, limit⟩)) :
    Mirrors (do x (← Row.top)) (do y (← Stack.top)) := by
  rintro ⟨items, limit⟩
  cases items with
  | nil => rfl
  | cons v rest =>
    have htop : Row.top (row ⟨v :: rest, limit⟩) = .ok v (row ⟨v :: rest, limit⟩) := by
      change ((v :: rest).reverse.getLast?.elim (Row.report (.underflow 1 0)) Pure.pure : RowM Value) _ = _
      rw [List.getLast?_reverse]
      rfl
    change EStateM.bind Row.top x _ = _
    rw [EStateM.bind, htop]
    exact h v rest limit

theorem pop : Mirrors Row.pop Stack.pop := by
  refine last fun v rest limit => ?_
  change EStateM.Result.ok v (⟨(v :: rest).reverse.dropLast, limit⟩ : Row) = .ok v ⟨rest.reverse, limit⟩
  rw [List.reverse_cons, List.dropLast_concat]

/-- an item of a kind, or a mismatch -/
theorem ofKind (kind : Kind) (v : Value) : Mirrors (Row.ofKind kind v) (viewed kind (ofKind? kind) v) := by
  intro s
  unfold Row.ofKind viewed ofKind?
  by_cases hkind : v.kind = kind
  · rw [if_pos hkind, if_pos hkind]
    rfl
  · rw [if_neg hkind, if_neg hkind]
    rfl

theorem popKind (kind : Kind) : Mirrors (Row.popKind kind) (Stack.popKind kind) := by
  refine last fun v rest limit => ?_
  have hkind := ofKind kind v ⟨v :: rest, limit⟩
  change EStateM.bind (Row.ofKind kind v) (fun _ => Row.pop) _ =
    onRow (EStateM.bind (viewed kind (ofKind? kind) v) (fun a => do modifyItems List.tail; Pure.pure a) _)
  unfold EStateM.bind
  rw [hkind]
  unfold viewed ofKind?
  by_cases hkind : v.kind = kind
  · rw [if_pos hkind]
    exact pop _
  · rw [if_neg hkind]
    rfl

/-! ### Positions -/

theorem dropN (n : Nat) : Mirrors (Row.dropN n) (Stack.dropN n) := by
  refine need fun s h => ?_
  rw [fromPosition_eq h _ rfl]
  rfl

theorem popN (n : Nat) : Mirrors (Row.popN n) (Stack.popN n) := by
  refine need fun s h => ?_
  rw [fromPosition_eq h _ rfl]
  rfl

theorem dupN (n : Nat) : Mirrors (Row.dupN n) (Stack.dupN n) := by
  refine need fun s h => room ?_
  rw [fromPosition_eq h _ rfl, ← List.reverse_append, List.reverse_reverse, List.append_assoc, List.take_append_drop]
  rfl

/-- a rearrangement of the top items, from the two ends -/
theorem onTop {f : List Value → Option (Unit × List Value)} {g : List Value → List Value} {s : Stack} (h : n ≤ s.depth)
    (hf : f (s.items.take n).reverse = some ((), (g (s.items.take n)).reverse)) :
    Row.fromPosition n f s.row = onRow (Stack.onTop n g s) := by
  rw [fromPosition_eq h _ hf, List.reverse_reverse]
  rfl

theorem reverseN (n : Nat) : Mirrors (Row.reverseN n) (Stack.reverseN n) := need fun _ h => onTop h rfl

/-- rolling one item, or none, changes nothing -/
theorem roll {f : List Value → Option (Unit × List Value)} {g : List Value → List Value} (hnil : g [] = [])
    (hone : ∀ v, g [v] = [v]) (hf : ∀ items, items ≠ [] → f items.reverse = some ((), (g items).reverse)) :
    Mirrors (do Row.need n; if 1 < n then Row.fromPosition n f) (do Stack.need n; Stack.onTop n g) := by
  refine need fun s h => ?_
  have hlength : (s.items.take n).length = n := by
    rw [List.length_take]
    exact Nat.min_eq_left h
  by_cases hmany : 1 < n
  · rw [if_pos hmany]
    refine onTop h (hf _ fun hempty => ?_)
    rw [hempty, List.length_nil] at hlength
    omega
  · have hsame : g (s.items.take n) = s.items.take n := by
      rcases htake : s.items.take n with _ | ⟨v, _ | ⟨w, rest⟩⟩
      · exact hnil
      · exact hone v
      · rw [htake] at hlength
        simp only [List.length_cons] at hlength
        omega
    rw [if_neg hmany]
    change EStateM.Result.ok () (row s) = .ok () (row { s with items := g (s.items.take n) ++ s.items.drop n })
    rw [hsame, List.take_append_drop]

theorem rollUpN (n : Nat) : Mirrors (Row.rollUpN n) (Stack.rollUpN n) := by
  refine roll rfl (fun _ => rfl) fun items h => ?_
  obtain ⟨init, v, rfl⟩ := (List.eq_nil_or_concat items).resolve_left h
  rw [List.concat_eq_append]
  simp [lastToFront_concat, Row.rotateLeft]

theorem rollDownN (n : Nat) : Mirrors (Row.rollDownN n) (Stack.rollDownN n) := by
  refine roll rfl (fun _ => rfl) fun items h => ?_
  obtain ⟨v, rest, rfl⟩ := List.exists_cons_of_ne_nil h
  simp [firstToEnd, Row.rotateRight]

/-- an operation on the top items through the deepest of them, which is the first from its index on -/
theorem atPosition {f : List Value → Option (α × List Value)} {g : Value → List Value → α × List Value}
    (hf : ∀ v items, f (v :: items) =
      some ((g v (items.reverse ++ [v])).1, (g v (items.reverse ++ [v])).2.reverse)) :
    Mirrors (do Row.position n; Row.fromPosition n f) (Stack.atPosition n none g) := by
  have hguard : (do Stack.position n; Stack.atPosition n none g) = Stack.atPosition n none g :=
    position_bind fun s v _ h hdeepest => atPosition_found h hdeepest
  rw [← hguard]
  refine position fun s hn h => ?_
  obtain ⟨v, -, hdeepest⟩ := deepest_take hn (Nat.not_lt.2 h)
  obtain ⟨init, htake⟩ : ∃ init, s.items.take n = init ++ [v] := by
    unfold deepest at hdeepest
    split at hdeepest
    · rename_i v' hlast
      cases hdeepest
      exact List.getLast?_eq_some_iff.1 hlast
    · cases hdeepest
  have hfirst : f (s.items.take n).reverse =
      some ((g v (s.items.take n)).1, (g v (s.items.take n)).2.reverse) := by
    rw [htake, List.reverse_append, List.reverse_singleton, List.singleton_append, hf, List.reverse_reverse]
  rw [fromPosition_eq h _ hfirst, atPosition_found (Nat.not_lt.2 h) hdeepest, List.reverse_reverse]
  rfl

theorem peek (n : Nat) : Mirrors (Row.peek n) (Stack.peek n) := by
  rw [peek_eq]
  exact atPosition fun v items => by simp [Row.first]

theorem nipN (n : Nat) : Mirrors (Row.nipN n) (Stack.nipN n) := by
  rw [nipN_eq]
  exact atPosition fun v items => by simp [Row.removeFirst]

theorem replace (n : Nat) (v : Value) : Mirrors (Row.replace n v) (Stack.replace n v) := by
  rw [replace_eq]
  exact atPosition fun w items => by simp [Row.setFirst]

theorem pick (n : Nat) : Mirrors (Row.pick n) (Stack.pick n) := bind (peek n) push

theorem tuckN (n : Nat) : Mirrors (Row.tuckN n) (Stack.tuckN n) := by
  refine position fun s hn h => room ?_
  obtain ⟨items, limit⟩ := s
  obtain ⟨v, rest, rfl⟩ : ∃ v rest, items = v :: rest := by
    refine List.exists_cons_of_length_pos ?_
    exact Nat.lt_of_lt_of_le (Nat.pos_of_ne_zero hn) h
  have htop : Row.fromPosition 1 Row.first (row ⟨v :: rest, limit⟩) = .ok v (row ⟨v :: rest, limit⟩) :=
    fromPosition_eq (by simp [depth]) [v] rfl
  change EStateM.bind (Row.fromPosition 1 Row.first) _ _ = _
  rw [EStateM.bind, htop]
  refine onTop h ?_
  obtain ⟨k, rfl⟩ := Nat.exists_eq_succ_of_ne_zero hn
  simp

/-- the two items are read and then written, each at its index -/
theorem swap : Mirrors Row.swap Stack.swap := by
  refine need fun s h => ?_
  obtain ⟨items, limit⟩ := s
  rcases items with _ | ⟨a, _ | ⟨b, rest⟩⟩
  · cases h
  · cases h with
    | step h => cases h
  · have hdeep (v w : Value) : 2 ≤ depth ⟨v :: w :: rest, limit⟩ := by simp [depth]
    have ha : Row.fromPosition 1 Row.first (row ⟨a :: b :: rest, limit⟩) = .ok a (row ⟨a :: b :: rest, limit⟩) :=
      fromPosition_eq (Nat.le_of_succ_le (hdeep a b)) [a] rfl
    have hb : Row.fromPosition 2 Row.first (row ⟨a :: b :: rest, limit⟩) = .ok b (row ⟨a :: b :: rest, limit⟩) :=
      fromPosition_eq (hdeep a b) [b, a] rfl
    have hset : Row.fromPosition 1 (Row.setFirst b) (row ⟨a :: b :: rest, limit⟩) =
        .ok () (row ⟨b :: b :: rest, limit⟩) :=
      fromPosition_eq (Nat.le_of_succ_le (hdeep a b)) [b] rfl
    have hset' : Row.fromPosition 2 (Row.setFirst a) (row ⟨b :: b :: rest, limit⟩) =
        .ok () (row ⟨b :: a :: rest, limit⟩) :=
      fromPosition_eq (hdeep b b) [a, b] rfl
    change EStateM.bind (Row.fromPosition 1 Row.first) _ _ = _
    rw [EStateM.bind, ha]
    change EStateM.bind (Row.fromPosition 2 Row.first) _ _ = _
    rw [EStateM.bind, hb]
    change EStateM.bind (Row.fromPosition 1 (Row.setFirst b)) _ _ = _
    rw [EStateM.bind, hset]
    exact hset'

theorem reverse : Mirrors Row.reverse Stack.reverse := fun _ => rfl

theorem clear : Mirrors Row.clear Stack.clear := fun _ => rfl

end Mirrors

/-- every call does the same to the row as to the stack -/
theorem Call.onRow_mirrors (c : Call) : Mirrors c.onRow c.run := by
  cases c with
  | push v => exact .bind (.push v) fun _ => .pure _
  | pop => exact .bind .pop fun _ => .pure _
  | popN n => exact .bind (.popN n) fun _ => .pure _
  | popKind kind => exact .bind (.popKind kind) fun _ => .pure _
  | popAsDouble | popAsBoolean | popAsString => exact .bind (.bind .pop fun _ => .pure _) fun _ => .pure _
  | top => exact .last fun _ _ _ => rfl
  | peek n => exact .bind (.peek n) fun _ => .pure _
  | peekKind kind n => exact .bind (.bind (.peek n) (.ofKind kind)) fun _ => .pure _
  | peekAsDouble n | peekAsBoolean n | peekAsString n => exact .bind (.bind (.peek n) fun _ => .pure _) fun _ => .pure _
  | replace n v => exact .bind (.replace n v) fun _ => .pure _
  | swap => exact .bind .swap fun _ => .pure _
  | drop => exact .bind (.bind .pop fun _ => .pure _) fun _ => .pure _
  | dup => exact .bind (.pick 1) fun _ => .pure _
  | copySecond => exact .bind (.pick 2) fun _ => .pure _
  | rollUp => exact .bind (.atDepth .rollUpN) fun _ => .pure _
  | rollDown => exact .bind (.atDepth .rollDownN) fun _ => .pure _
  | rotateUp => exact .bind (.rollUpN 3) fun _ => .pure _
  | rotateDown => exact .bind (.rollDownN 3) fun _ => .pure _
  | reverse => exact .bind .reverse fun _ => .pure _
  | clear => exact .bind .clear fun _ => .pure _
  | dropN n => exact .bind (.dropN n) fun _ => .pure _
  | dupN n => exact .bind (.dupN n) fun _ => .pure _
  | pick n => exact .bind (.pick n) fun _ => .pure _
  | nipN n => exact .bind (.nipN n) fun _ => .pure _
  | rollUpN n => exact .bind (.rollUpN n) fun _ => .pure _
  | rollDownN n => exact .bind (.rollDownN n) fun _ => .pure _
  | tuckN n => exact .bind (.tuckN n) fun _ => .pure _
  | reverseN n => exact .bind (.reverseN n) fun _ => .pure _

end ReversePolish.Stack
