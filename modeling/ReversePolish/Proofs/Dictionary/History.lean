/-
A dictionary shows what was done to it.

A history is a list of operations on a dictionary that was empty at first. `survivors` reads off a history which
definitions a name has left: those registered under it that no later operation drops. Results:
- `definitions_perform`, `survivors_snoc`: one operation drops and adds the same definitions on both sides;
- `definitions_after`: so after any history, the definitions of a name are its survivors;
- `refines_history`: and everything else that a dictionary answers follows from them.
-/
import Mathlib.Data.List.Induction
import ReversePolish.Proofs.Dictionary

namespace ReversePolish.Dictionary

/-! ## Histories -/

/-- a call that changes a dictionary -/
inductive Operation where
  | register (name : String) (definition : Definition)
  | remove (name : String)
  | removeCompiled (name : String)

def perform (d : Dictionary) : Operation → Dictionary
  | .register name x => (d.register name x).2
  | .remove name => (d.remove name).2
  | .removeCompiled name => d.removeCompiled name

/-- the dictionary after a history, oldest operation first -/
def after (history : List Operation) : Dictionary := history.foldl perform {}

/-- does the operation drop this definition of the name? -/
def Operation.drops (name : String) (x : Definition) : Operation → Bool
  | .register _ _ => false
  | .remove other => other = name
  | .removeCompiled other => other = name && x.isCompiled

/-- the definition that the operation adds to the name; the empty name takes none -/
def Operation.adds (name : String) : Operation → List Definition
  | .register other x => if other = name ∧ name ≠ "" then [x] else []
  | .remove _ => []
  | .removeCompiled _ => []

/-- the definitions of a name that were registered and that no later operation drops, oldest first -/
def survivors (name : String) : List Operation → List Definition
  | [] => []
  | op :: later => (op.adds name).filter (fun x => later.all (!·.drops name x)) ++ survivors name later

/-! ## One operation -/

theorem survivors_snoc (name : String) (history : List Operation) (op : Operation) :
    survivors name (history ++ [op]) = (survivors name history).filter (!op.drops name ·) ++ op.adds name := by
  induction history with
  | nil => simp [survivors]
  | cons first later ih =>
    rw [List.cons_append, survivors, survivors, ih, List.filter_append, List.append_assoc, List.filter_filter]
    congr 2
    funext x
    rw [List.all_append, Bool.and_comm]
    simp

theorem definitions_remove {d : Dictionary} (h : d.Proper) (name other : String) :
    (d.remove name).2.definitions other = if name = other then [] else d.definitions other := by
  unfold remove definitions
  rw [Keyed.find?_erase name other h.sorted]
  split <;> rfl

theorem Proper.perform {d : Dictionary} (h : d.Proper) (op : Operation) : (d.perform op).Proper := by
  cases op with
  | register name x => exact h.register name x
  | remove name => exact h.erase name
  | removeCompiled name => exact h.removeCompiled name

/-- an operation that drops nothing of a name keeps all its definitions -/
theorem Operation.keeps_all {op : Operation} {name : String} (h : ∀ x, op.drops name x = false)
    (defs : List Definition) : defs.filter (!op.drops name ·) = defs := by
  apply List.filter_eq_self.2
  intro x _
  rw [h, Bool.not_false]

theorem definitions_perform {d : Dictionary} (h : d.Proper) (op : Operation) (name : String) :
    (d.perform op).definitions name = (d.definitions name).filter (!op.drops name ·) ++ op.adds name := by
  cases op with
  | register other x =>
    rw [Operation.keeps_all fun _ => rfl, Dictionary.perform]
    by_cases hempty : other = ""
    · have hadds : Operation.adds name (.register other x) = [] := if_neg fun hn => hn.2 (hn.1 ▸ hempty)
      rw [hadds, List.append_nil, register, if_pos (by simp [hempty])]
    · rw [definitions_register hempty]
      by_cases hname : other = name
      · subst hname
        simp [Operation.adds, hempty]
      · simp [Operation.adds, hname]
  | remove other =>
    rw [Dictionary.perform, definitions_remove h]
    by_cases hname : other = name
    · simp [Operation.adds, Operation.drops, hname]
    · have hkeeps (x : Definition) : Operation.drops name x (.remove other) = false := decide_eq_false hname
      rw [Operation.keeps_all hkeeps, if_neg hname, Operation.adds, List.append_nil]
  | removeCompiled other =>
    rw [Dictionary.perform, definitions_removeCompiled h]
    by_cases hname : other = name
    · subst hname
      simp [Operation.adds, Operation.drops]
    · have hkeeps (x : Definition) : Operation.drops name x (.removeCompiled other) = false := by
        simp [Operation.drops, hname]
      rw [Operation.keeps_all hkeeps, if_neg hname, Operation.adds, List.append_nil]

/-! ## Whole histories -/

theorem after_snoc (history : List Operation) (op : Operation) :
    after (history ++ [op]) = (after history).perform op := by
  simp [after]

theorem proper_after (history : List Operation) : (after history).Proper := by
  induction history using List.reverseRecOn with
  | nil => exact proper_empty
  | append_singleton history op ih =>
    rw [after_snoc]
    exact ih.perform op

theorem definitions_after (history : List Operation) (name : String) :
    (after history).definitions name = survivors name history := by
  induction history using List.reverseRecOn with
  | nil => rfl
  | append_singleton history op ih =>
    rw [after_snoc, definitions_perform (proper_after history), ih, survivors_snoc]

/-- a name is listed if it has an entry -/
theorem mem_names_iff (d : Dictionary) (name : String) : name ∈ d.names ↔ d.contains name = true := by
  unfold names contains Keyed.contains Keyed.names
  induction d.words with
  | nil => simp
  | cons e rest ih =>
    obtain ⟨k, defs⟩ := e
    rw [List.map_cons, List.mem_cons, ih, Keyed.find?]
    by_cases hk : k = name
    · simp [hk]
    · simp [hk, Ne.symm hk]

/-- what a dictionary answers, if these are the definitions that every name should have -/
structure Shows (d : Dictionary) (view : String → List Definition) : Prop where
  definitions : ∀ name, d.definitions name = view name
  contains : ∀ name, d.contains name = true ↔ view name ≠ []
  lookup : ∀ name s, d.lookup name s = (view name).find? (·.validator.accepts s)
  /-- the names are in strictly increasing order -/
  sorted : d.names.Pairwise (· < ·)
  names : ∀ name, name ∈ d.names ↔ view name ≠ []
  size : d.size = d.names.length
  /-- a removal says whether there was anything to remove -/
  removed : ∀ name, (d.remove name).1 = true ↔ view name ≠ []
  /-- a registration is refused for the empty name only -/
  refused : ∀ name x, (d.register name x).1 = false ↔ name = ""
  /-- and only then is the dictionary left as it was -/
  unchanged : ∀ name x, (d.register name x).2 = d ↔ name = ""

theorem register_fst_eq_false_iff (d : Dictionary) (name : String) (x : Definition) :
    (d.register name x).1 = false ↔ name = "" := by
  unfold register
  split
  · rename_i hempty
    simpa using hempty
  · rename_i hne
    simpa using hne

/-- a registration that is not refused leaves one definition more -/
theorem register_snd_eq_self_iff (d : Dictionary) (name : String) (x : Definition) :
    (d.register name x).2 = d ↔ name = "" := by
  constructor
  · intro hsame
    by_contra hne
    have hlonger := definitions_register (d := d) hne x name
    rw [hsame, if_pos rfl] at hlonger
    simpa using congrArg List.length hlonger
  · intro hempty
    simp [register, hempty]

theorem Proper.shows {d : Dictionary} (h : d.Proper) : d.Shows d.definitions where
  definitions _ := rfl
  contains := h.contains_iff
  lookup _ _ := rfl
  sorted := List.pairwise_map.2 h.sorted
  names name := (mem_names_iff d name).trans (h.contains_iff name)
  size := (List.length_map _).symm
  removed := h.contains_iff
  refused := register_fst_eq_false_iff d
  unchanged := register_snd_eq_self_iff d

/-- **Dictionaries refine their history.** After any operations on any names, the definitions of a name are those that
were registered under it and that no later operation dropped, in order. A removal of the name drops all of them, and a
removal of compiled definitions the compiled ones. Every answer of the dictionary is about these definitions. -/
theorem refines_history (history : List Operation) :
    (after history).Shows fun name => survivors name history := by
  have hview : (after history).definitions = fun name => survivors name history :=
    funext (definitions_after history)
  rw [← hview]
  exact (proper_after history).shows

-- what was registered before a removal is gone, and so is a compiled definition before a removal of those
example :
    survivors "W" [.register "W" ⟨.depth 3, .showStack, .none⟩, .remove "W",
      .register "W" ⟨.depth 0, .showStack, .none⟩, .register "V" ⟨.depth 1, .showStack, .none⟩,
      .register "W" (.ofBody (.empty .word)), .removeCompiled "W", .register "W" ⟨.depth 2, .showStack, .none⟩] =
      [⟨.depth 0, .showStack, .none⟩, ⟨.depth 2, .showStack, .none⟩] := rfl

end ReversePolish.Dictionary
