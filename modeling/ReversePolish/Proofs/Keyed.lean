/-
Tables in increasing order of their names.

Insertion and removal keep the order (`sorted_insert`, `sorted_erase`), and in a table in order a name has one entry, so
that a removed name is gone (`find?_erase`).
-/
import ReversePolish.Keyed

namespace ReversePolish.Keyed

variable {α : Type}

/-- the names are in increasing order -/
def Sorted (table : List (String × α)) : Prop := table.Pairwise fun e e' => e.1 < e'.1

theorem sorted_cons {e : String × α} {table : List (String × α)} :
    Sorted (e :: table) ↔ (∀ e' ∈ table, e.1 < e'.1) ∧ Sorted table := List.pairwise_cons

theorem mem_insert {name : String} {a : α} {table : List (String × α)} {e : String × α}
    (h : e ∈ insert name a table) : e = (name, a) ∨ e ∈ table := by
  induction table with
  | nil => simpa [insert] using h
  | cons e' rest ih =>
    obtain ⟨k, b⟩ := e'
    unfold insert at h
    split at h
    · exact (List.mem_cons.1 h).imp id (List.mem_cons_of_mem _)
    · split at h
      · exact List.mem_cons.1 h
      · rcases List.mem_cons.1 h with h | h
        · exact .inr (List.mem_cons.2 (.inl h))
        · exact (ih h).imp id (List.mem_cons_of_mem _)

theorem sorted_insert (name : String) (a : α) {table : List (String × α)} (h : Sorted table) :
    Sorted (insert name a table) := by
  induction table with
  | nil => exact List.pairwise_singleton _ _
  | cons e rest ih =>
    obtain ⟨k, b⟩ := e
    obtain ⟨hk, hrest⟩ := sorted_cons.1 h
    unfold insert
    split
    · rename_i hname
      exact sorted_cons.2 ⟨hname ▸ hk, hrest⟩
    · rename_i hne
      split
      · rename_i hlt
        refine sorted_cons.2 ⟨fun e' he' => ?_, h⟩
        rcases List.mem_cons.1 he' with rfl | he'
        · exact hlt
        · exact String.lt_trans hlt (hk e' he')
      · rename_i hle
        refine sorted_cons.2 ⟨fun e' he' => ?_, ih hrest⟩
        rcases mem_insert he' with rfl | he'
        · exact Std.lt_of_le_of_ne hle hne
        · exact hk e' he'

/-- an entry whose name is behind all others goes to the end -/
theorem insert_last {name : String} (a : α) {table : List (String × α)} (h : ∀ e ∈ table, e.1 < name) :
    insert name a table = table ++ [(name, a)] := by
  induction table with
  | nil => rfl
  | cons e rest ih =>
    obtain ⟨k, b⟩ := e
    have hk : k < name := h (k, b) (by simp)
    have hne : k ≠ name := fun heq => String.lt_irrefl name (heq ▸ hk)
    have hle : ¬ name < k := fun hlt => String.lt_irrefl name (String.lt_trans hlt hk)
    unfold insert
    rw [if_neg hne, if_neg hle, ih fun e' he' => h e' (List.mem_cons_of_mem _ he')]
    rfl

theorem erase_sublist (name : String) (table : List (String × α)) : (erase name table).Sublist table := by
  induction table with
  | nil => exact .slnil
  | cons e rest ih =>
    unfold erase
    split
    · exact List.sublist_cons_self _ _
    · exact ih.cons_cons _

theorem sorted_erase (name : String) {table : List (String × α)} (h : Sorted table) : Sorted (erase name table) :=
  h.sublist (erase_sublist name table)

theorem find?_eq_none_of_forall_ne {name : String} {table : List (String × α)} (h : ∀ e ∈ table, e.1 ≠ name) :
    find? name table = none := by
  induction table with
  | nil => rfl
  | cons e rest ih =>
    unfold find?
    rw [if_neg (h e (by simp)), ih fun e' he' => h e' (List.mem_cons_of_mem _ he')]

theorem find?_erase (name other : String) {table : List (String × α)} (h : Sorted table) :
    find? other (erase name table) = if name = other then none else find? other table := by
  induction table with
  | nil => simp [erase]
  | cons e rest ih =>
    obtain ⟨k, b⟩ := e
    obtain ⟨hk, hrest⟩ := sorted_cons.1 h
    unfold erase
    by_cases hname : k = name
    · subst hname
      rw [if_pos rfl]
      by_cases hother : k = other
      · subst hother
        rw [if_pos rfl, find?_eq_none_of_forall_ne fun e he heq => String.lt_irrefl _ (heq ▸ hk e he)]
      · rw [if_neg hother, find?, if_neg hother]
    · rw [if_neg hname, find?, find?, ih hrest]
      by_cases hother : k = other
      · subst hother
        rw [if_pos rfl, if_pos rfl, if_neg (Ne.symm hname)]
      · rw [if_neg hother, if_neg hother]

end ReversePolish.Keyed
