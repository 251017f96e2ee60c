/-
Tables from names to entries, as association lists in increasing order of the names.

Insertion keeps the order and replaces an entry of the same name, so a table that is built from insertions lists every
name once and two such tables with the same entries are the same list.
-/

namespace ReversePolish.Keyed

variable {α β : Type}

/-- the entry of a name -/
def find? (name : String) : List (String × α) → Option α
  | [] => none
  | (k, a) :: rest => if k = name then some a else find? name rest

/-- is the name in the table? -/
def contains (name : String) (table : List (String × α)) : Bool := (find? name table).isSome

/-- puts an entry at its place, in place of an older one of the same name -/
def insert (name : String) (a : α) : List (String × α) → List (String × α)
  | [] => [(name, a)]
  | (k, b) :: rest =>
    if k = name then (name, a) :: rest
    else if name < k then (name, a) :: (k, b) :: rest
    else (k, b) :: insert name a rest

/-- drops the entry of a name -/
def erase (name : String) : List (String × α) → List (String × α)
  | [] => []
  | (k, b) :: rest => if k = name then rest else (k, b) :: erase name rest

/-- the names, in increasing order -/
def names (table : List (String × α)) : List String := table.map Prod.fst

/-- inserts entries one after the other; of two entries of one name the later stays -/
def ofList (entries : List (String × α)) : List (String × α) :=
  entries.foldl (fun table (k, a) => insert k a table) []

@[simp] theorem find?_nil (name : String) : find? name ([] : List (String × α)) = none := rfl

/-- an inserted entry is found, and every other name keeps its entry -/
theorem find?_insert (name other : String) (a : α) (table : List (String × α)) :
    find? other (insert name a table) = if name = other then some a else find? other table := by
  induction table with
  | nil => simp [insert, find?]
  | cons e rest ih =>
    obtain ⟨k, b⟩ := e
    by_cases hk : k = name
    · subst hk
      by_cases ho : k = other <;> simp [insert, find?, ho]
    · by_cases hlt : name < k
      · simp [insert, find?, hk, hlt]
      · simp only [insert, hk, hlt, find?, if_false, ih]
        by_cases ho : k = other
        · subst ho
          simp [Ne.symm hk]
        · simp [ho]

end ReversePolish.Keyed
