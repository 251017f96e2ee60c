/-
Validators compared with one another.

Every validator asks something of the kinds of the top items (`slots`), and only the one for a count asks more. Results:
- `Validator.accepts_of_implies`: a validator that implies another accepts no stack that the other refuses;
- `Validator.accepts_raised`: a stack that is accepted stays so when items are put below it;
- `Validator.refuses_raised`: a validator that another one settles, and that refuses a stack which the other accepts,
  goes on to refuse it when items are put below it.
-/
import ReversePolish.Word.Validator

namespace ReversePolish

/-- is every kind that the first slot accepts accepted by the second? -/
def Slot.within : Slot → Slot → Bool
  | _, .any => true
  | .any, .kind _ => false
  | .kind k, .kind k' => k == k'

/-- is no kind accepted by both? -/
def Slot.excludes : Slot → Slot → Bool
  | .kind k, .kind k' => k != k'
  | _, _ => false

theorem Slot.accepts_of_within {x y : Slot} (h : x.within y = true) {k : Kind} (hk : x.accepts k = true) :
    y.accepts k = true := by
  cases y with
  | any => rfl
  | kind k' =>
    cases x with
    | any => cases h
    | kind k'' =>
      have heq : k'' = k' := of_decide_eq_true h
      rw [← heq]
      exact hk

theorem Slot.refuses_of_excludes {x y : Slot} (h : x.excludes y = true) {k : Kind} (hk : y.accepts k = true) :
    x.accepts k = false := by
  cases x with
  | any => cases h
  | kind k' =>
    cases y with
    | any => cases h
    | kind k'' =>
      have hne : k' ≠ k'' := by simpa [Slot.excludes] using h
      have heq : k'' = k := of_decide_eq_true hk
      rw [← heq]
      exact decide_eq_false hne

namespace Validator

/-! ## Slots -/

theorem accepts_countOnTop {s : Stack} :
    accepts .countOnTop s = true ↔
      ∃ n below, s.items = .integer n :: below ∧ 0 ≤ n.toInt ∧ n.toInt.toNat ≤ below.length := by
  constructor
  · intro h
    dsimp only [accepts] at h
    split at h
    · rename_i n below hitems
      exact ⟨n, below, hitems, of_decide_eq_true h⟩
    · cases h
  · rintro ⟨n, below, hitems, hcount⟩
    dsimp only [accepts]
    rw [hitems]
    exact decide_eq_true hcount

/-- what is asked of the kinds of the top items, top first -/
def slots : Validator → List Slot
  | .kinds slots => slots
  | .depth n => List.replicate n .any
  | .countOnTop => [.kind .integer]

/-- slots that accept anything ask for a depth -/
theorem fits_any (n : Nat) (items : List Value) : fits (List.replicate n .any) items = decide (n ≤ items.length) := by
  induction n generalizing items with
  | zero => simp [fits]
  | succ n ih =>
    cases items with
    | nil => simp [fits, List.replicate_succ]
    | cons v rest => simp [fits, List.replicate_succ, Slot.accepts, ih]

theorem fits_slots {v : Validator} {s : Stack} (h : v.accepts s = true) : fits v.slots s.items = true := by
  cases v with
  | kinds slots => exact h
  | depth n =>
    rw [slots, fits_any]
    exact h
  | countOnTop =>
    obtain ⟨n, below, hitems, -⟩ := accepts_countOnTop.1 h
    rw [hitems]
    rfl

theorem accepts_of_fits {v : Validator} (hv : v ≠ .countOnTop) {s : Stack} (h : fits v.slots s.items = true) :
    v.accepts s = true := by
  cases v with
  | kinds slots => exact h
  | depth n =>
    rw [slots, fits_any] at h
    exact h
  | countOnTop => exact absurd rfl hv

/-! ## Implication -/

/-- does every list of items that fits the first slots fit the second? -/
def meets : List Slot → List Slot → Bool
  | _, [] => true
  | [], _ :: _ => false
  | x :: xs, y :: ys => x.within y && meets xs ys

theorem fits_of_meets {xs ys : List Slot} (h : meets xs ys = true) {items : List Value} (hfits : fits xs items = true) :
    fits ys items = true := by
  induction xs generalizing ys items with
  | nil =>
    cases ys with
    | nil => rfl
    | cons y ys => cases h
  | cons x xs ih =>
    cases ys with
    | nil => rfl
    | cons y ys =>
      cases items with
      | nil => cases hfits
      | cons v rest =>
        obtain ⟨hwithin, hmeets⟩ := Bool.and_eq_true_iff.1 h
        obtain ⟨hslot, hrest⟩ := Bool.and_eq_true_iff.1 hfits
        exact Bool.and_eq_true_iff.2 ⟨Slot.accepts_of_within hwithin hslot, ih hmeets hrest⟩

/-- nothing but the validator for a count implies that validator -/
def implies (v w : Validator) : Bool := decide (v = w) || decide (w ≠ .countOnTop) && meets v.slots w.slots

theorem accepts_of_implies {v w : Validator} (h : v.implies w = true) {s : Stack} (hs : v.accepts s = true) :
    w.accepts s = true := by
  rcases Bool.or_eq_true_iff.1 h with heq | hmeets
  · rw [← of_decide_eq_true heq]
    exact hs
  · obtain ⟨hcount, hmeets⟩ := Bool.and_eq_true_iff.1 hmeets
    exact accepts_of_fits (of_decide_eq_true hcount) (fits_of_meets hmeets (fits_slots hs))

/-! ## Items below -/

theorem fits_append {slots : List Slot} {items : List Value} (h : fits slots items = true) (below : List Value) :
    fits slots (items ++ below) = true := by
  induction slots generalizing items with
  | nil => rfl
  | cons slot slots ih =>
    cases items with
    | nil => cases h
    | cons v rest =>
      obtain ⟨hslot, hrest⟩ := Bool.and_eq_true_iff.1 h
      exact Bool.and_eq_true_iff.2 ⟨hslot, ih hrest⟩

theorem accepts_raised {v : Validator} {s t : Stack} {below : List Value} (ht : t.items = s.items ++ below)
    (h : v.accepts s = true) : v.accepts t = true := by
  cases v with
  | kinds slots =>
    change fits slots t.items = true
    rw [ht]
    exact fits_append h below
  | depth n =>
    have hle : n ≤ s.items.length := of_decide_eq_true h
    refine decide_eq_true ?_
    rw [Stack.depth, ht, List.length_append]
    omega
  | countOnTop =>
    obtain ⟨n, items, hitems, hn, hle⟩ := accepts_countOnTop.1 h
    refine accepts_countOnTop.2 ⟨n, items ++ below, by rw [ht, hitems, List.cons_append], hn, ?_⟩
    rw [List.length_append]
    omega

/-- does the fit of the first slots show on the items that fit the second? Either the first do not reach deeper, or some
kind tells the two apart before they do. -/
def shows : List Slot → List Slot → Bool
  | [], _ => true
  | _ :: _, [] => false
  | e :: es, x :: xs => e.excludes x || shows es xs

theorem fits_of_shows {es xs : List Slot} (h : shows es xs = true) {items below : List Value}
    (hxs : fits xs items = true) (hes : fits es (items ++ below) = true) : fits es items = true := by
  induction es generalizing xs items with
  | nil => rfl
  | cons e es ih =>
    cases xs with
    | nil => cases h
    | cons x xs =>
      cases items with
      | nil => cases hxs
      | cons v rest =>
        obtain ⟨hx, hxs⟩ := Bool.and_eq_true_iff.1 hxs
        obtain ⟨he, hes⟩ := Bool.and_eq_true_iff.1 hes
        rcases Bool.or_eq_true_iff.1 h with hexcludes | hshows
        · rw [Slot.refuses_of_excludes hexcludes hx] at he
          cases he
        · exact Bool.and_eq_true_iff.2 ⟨he, ih hshows hxs hes⟩

/-- is the answer of the first validator settled on every stack that the second accepts, whatever lies below? -/
def settledBy (e x : Validator) : Bool := decide (e ≠ .countOnTop) && shows e.slots x.slots

theorem refuses_raised {e x : Validator} (h : e.settledBy x = true) {s t : Stack} {below : List Value}
    (ht : t.items = s.items ++ below) (hx : x.accepts s = true) (he : e.accepts s = false) : e.accepts t = false := by
  obtain ⟨hcount, hshows⟩ := Bool.and_eq_true_iff.1 h
  rw [Bool.eq_false_iff]
  intro haccepts
  have hfits := fits_slots haccepts
  rw [ht] at hfits
  rw [accepts_of_fits (of_decide_eq_true hcount) (fits_of_shows hshows (fits_slots hx) hfits)] at he
  cases he

end Validator

end ReversePolish
