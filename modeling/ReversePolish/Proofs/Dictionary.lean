/-
What a dictionary holds.

Registration and installation are described through `definitions`: a registered definition stands behind the others of
its name, an installed body takes the place of the one its name had. `Built natives d` says that d holds the given
native definitions, in their order, and behind them at most one installed body a name. Results:
- `Built.registerAll`, `Built.install`: dictionaries stay built;
- `Built.lookup_eq`: the first native definition that accepts the stack applies, and the installed body if none does.
-/
import ReversePolish.Proofs.Keyed
import ReversePolish.Vocabulary

namespace ReversePolish.Dictionary

variable {d : Dictionary}

/-- the names are in order, and every name has a definition -/
structure Proper (d : Dictionary) : Prop where
  sorted : Keyed.Sorted d.words
  filled : ∀ name, Keyed.find? name d.words ≠ some []

theorem proper_empty : Proper {} := ⟨List.Pairwise.nil, by simp⟩

theorem Proper.contains_iff (h : d.Proper) (name : String) : d.contains name = true ↔ d.definitions name ≠ [] := by
  have hfilled := h.filled name
  unfold contains Keyed.contains definitions
  cases hf : Keyed.find? name d.words with
  | none => simp
  | some defs =>
    rw [hf] at hfilled
    simpa using hfilled

/-! ## Changes -/

theorem definitions_insert (name other : String) (defs : List Definition) :
    definitions ⟨Keyed.insert name defs d.words⟩ other = if name = other then defs else d.definitions other := by
  unfold definitions
  rw [Keyed.find?_insert]
  split <;> rfl

theorem Proper.insert (h : d.Proper) (name : String) {defs : List Definition} (hdefs : defs ≠ []) :
    Proper ⟨Keyed.insert name defs d.words⟩ := by
  refine ⟨Keyed.sorted_insert name defs h.sorted, fun other => ?_⟩
  rw [Keyed.find?_insert]
  split
  · simpa using hdefs
  · exact h.filled other

theorem definitions_register {name : String} (hname : name ≠ "") (x : Definition) (other : String) :
    (d.register name x).2.definitions other =
      if name = other then d.definitions name ++ [x] else d.definitions other := by
  unfold register
  rw [if_neg (by simpa using hname), definitions_insert]

theorem Proper.register (h : d.Proper) (name : String) (x : Definition) : (d.register name x).2.Proper := by
  unfold Dictionary.register
  split
  · exact h
  · exact h.insert name (by simp)

theorem Proper.erase (h : d.Proper) (name : String) : Proper ⟨Keyed.erase name d.words⟩ := by
  refine ⟨Keyed.sorted_erase name h.sorted, fun other => ?_⟩
  rw [Keyed.find?_erase name other h.sorted]
  split
  · simp
  · exact h.filled other

theorem Proper.removeCompiled (h : d.Proper) (name : String) : (d.removeCompiled name).Proper := by
  unfold Dictionary.removeCompiled
  split
  · split
    · exact h.erase name
    · rename_i kept hkept
      exact h.insert name hkept
  · exact h

theorem definitions_removeCompiled (h : d.Proper) (name other : String) :
    (d.removeCompiled name).definitions other =
      if name = other then (d.definitions name).filter (!·.isCompiled) else d.definitions other := by
  unfold removeCompiled
  split
  · split
    · rename_i hkept
      simp only [definitions] at hkept ⊢
      rw [Keyed.find?_erase name other h.sorted, hkept]
      split <;> rfl
    · rw [definitions_insert]
  · rename_i hmissing
    have hnil : d.definitions name = [] := by
      rw [h.contains_iff] at hmissing
      exact Classical.not_not.1 hmissing
    split
    · rename_i heq
      rw [← heq, hnil]
      rfl
    · rfl

theorem Proper.install (h : d.Proper) (b : Body) : (d.install b).Proper := (h.removeCompiled _).register _ _

/-- an installed body stands behind the native definitions of its name, in place of an earlier body -/
theorem definitions_install (h : d.Proper) {b : Body} (hb : b.ident ≠ "") (other : String) :
    (d.install b).definitions other =
      if b.ident = other then (d.definitions b.ident).filter (!·.isCompiled) ++ [.ofBody b]
      else d.definitions other := by
  unfold install
  rw [definitions_register hb, definitions_removeCompiled h, definitions_removeCompiled h, if_pos rfl]
  split <;> rfl

/-- installation never drops a name -/
theorem contains_install (h : d.Proper) {b : Body} (hb : b.ident ≠ "") (name : String) :
    (d.install b).contains name = true ↔ b.ident = name ∨ d.contains name = true := by
  rw [(h.install b).contains_iff, h.contains_iff, definitions_install h hb]
  split
  · rename_i heq
    simp [heq]
  · rename_i hne
    simp [hne]

/-! ## Native definitions and installed bodies -/

/-- the installed body of a name -/
def body? (d : Dictionary) (name : String) : Option Body := (d.definitions name).findSome? (·.context.body?)

/-- the definitions that a list gives a name -/
def nativesOf (natives : List Named) (name : String) : List Definition :=
  (natives.filter (·.1 = name)).map Prod.snd

theorem mem_nativesOf {natives : List Named} {name : String} {x : Definition} :
    x ∈ nativesOf natives name ↔ (name, x) ∈ natives := by
  simp [nativesOf]

/-- what is defined behind the native definitions is not looked up where one of them applies -/
theorem lookup_of_native {natives : List Named} {name : String} (h : nativesOf natives name <+: d.definitions name)
    {s : Stack} {x : Definition} (hx : (nativesOf natives name).find? (·.validator.accepts s) = some x) :
    d.lookup name s = some x := by
  obtain ⟨more, hmore⟩ := h
  unfold lookup
  rw [← hmore, List.find?_append, hx]
  rfl

theorem nativesOf_append (xs ys : List Named) (name : String) :
    nativesOf (xs ++ ys) name = nativesOf xs name ++ nativesOf ys name := by
  simp [nativesOf]

/-- the dictionary holds these native definitions, and behind them at most one body a name -/
structure Built (natives : List Named) (d : Dictionary) : Prop where
  proper : d.Proper
  bodiless : ∀ e ∈ natives, e.2.context.body? = none
  definitions_eq : ∀ name, d.definitions name = nativesOf natives name ++ ((d.body? name).map Definition.ofBody).toList

theorem built_empty : Built [] {} := ⟨proper_empty, by simp, fun _ => rfl⟩

theorem findSome?_body?_nativesOf {natives : List Named} (h : ∀ e ∈ natives, e.2.context.body? = none) (name : String) :
    (nativesOf natives name).findSome? (·.context.body?) = none := by
  rw [List.findSome?_eq_none_iff]
  intro x hx
  obtain ⟨e, he, rfl⟩ := List.mem_map.1 hx
  exact h e ((List.mem_filter.1 he).1)

namespace Built

variable {natives : List Named}

theorem filter_definitions (h : Built natives d) (name : String) :
    (d.definitions name).filter (!·.isCompiled) = nativesOf natives name := by
  rw [h.definitions_eq, List.filter_append, List.filter_eq_self.2]
  · cases d.body? name <;> simp [Definition.isCompiled, Definition.ofBody, Context.body?]
  · intro x hx
    obtain ⟨e, he, rfl⟩ := List.mem_map.1 hx
    simp [Definition.isCompiled, h.bodiless e ((List.mem_filter.1 he).1)]

/-- the bodies after an installation -/
theorem body?_install (h : Built natives d) {b : Body} (hb : b.ident ≠ "") (name : String) :
    (d.install b).body? name = if b.ident = name then some b else d.body? name := by
  unfold body?
  rw [definitions_install h.proper hb, h.filter_definitions]
  split
  · rw [List.findSome?_append, findSome?_body?_nativesOf h.bodiless]
    rfl
  · rfl

theorem install (h : Built natives d) {b : Body} (hb : b.ident ≠ "") : Built natives (d.install b) := by
  refine ⟨h.proper.install b, h.bodiless, fun name => ?_⟩
  rw [h.body?_install hb, definitions_install h.proper hb, h.filter_definitions]
  split
  · rename_i heq
    rw [heq]
    rfl
  · exact h.definitions_eq name

/-- a native definition is registered under a name that has no body -/
theorem register (h : Built natives d) {e : Named} (hname : e.1 ≠ "") (hbodiless : e.2.context.body? = none)
    (hfree : d.body? e.1 = none) :
    Built (natives ++ [e]) (d.register e.1 e.2).2 ∧ (d.register e.1 e.2).2.body? = d.body? := by
  have hbody : (d.register e.1 e.2).2.body? = d.body? := by
    funext name
    unfold body?
    rw [definitions_register hname]
    split
    · rename_i heq
      rw [List.findSome?_append, List.findSome?_singleton, hbodiless, heq, Option.or_none]
    · rfl
  refine ⟨⟨h.proper.register _ _, ?_, fun name => ?_⟩, hbody⟩
  · intro x hx
    rcases List.mem_append.1 hx with hx | hx
    · exact h.bodiless x hx
    · rw [List.mem_singleton.1 hx]
      exact hbodiless
  · rw [hbody, definitions_register hname, nativesOf_append, h.definitions_eq, h.definitions_eq]
    by_cases heq : e.1 = name
    · subst heq
      simp [nativesOf, hfree]
    · simp [nativesOf, heq]

theorem registerAll (h : Built natives d) {more : List Named} (hname : ∀ e ∈ more, e.1 ≠ "")
    (hbodiless : ∀ e ∈ more, e.2.context.body? = none) (hfree : ∀ e ∈ more, d.body? e.1 = none) :
    Built (natives ++ more) (d.registerAll more) ∧ (d.registerAll more).body? = d.body? := by
  induction more generalizing natives d with
  | nil => exact ⟨by rwa [List.append_nil], rfl⟩
  | cons e rest ih =>
    obtain ⟨hstep, hbody⟩ := h.register (hname e (by simp)) (hbodiless e (by simp)) (hfree e (by simp))
    have hrest := ih hstep (fun e' he' => hname e' (List.mem_cons_of_mem _ he'))
      (fun e' he' => hbodiless e' (List.mem_cons_of_mem _ he'))
      (fun e' he' => by rw [hbody]; exact hfree e' (List.mem_cons_of_mem _ he'))
    rw [List.append_assoc, hbody] at hrest
    exact hrest

/-! ## Look-up -/

theorem contains_iff (h : Built natives d) (name : String) :
    d.contains name = true ↔ nativesOf natives name ≠ [] ∨ (d.body? name).isSome = true := by
  rw [h.proper.contains_iff, h.definitions_eq]
  cases d.body? name <;> simp

theorem lookup_eq (h : Built natives d) (name : String) (s : Stack) :
    d.lookup name s =
      ((nativesOf natives name).find? (·.validator.accepts s)).or ((d.body? name).map Definition.ofBody) := by
  unfold lookup
  rw [h.definitions_eq, List.find?_append]
  cases d.body? name with
  | none => rfl
  | some b => simp [Definition.ofBody, Validator.accepts]

theorem lookup_bodiless (h : Built natives d) {name : String} (hbody : d.body? name = none) (s : Stack) :
    d.lookup name s = (nativesOf natives name).find? (·.validator.accepts s) := by
  rw [h.lookup_eq, hbody, Option.map_none, Option.or_none]

/-- the native definitions of a name come first -/
theorem natives_first (h : Built natives d) (name : String) : nativesOf natives name <+: d.definitions name :=
  ⟨_, (h.definitions_eq name).symm⟩

/-- a name without a body has its native definitions only -/
theorem mem_natives_of_bodiless (h : Built natives d) {name : String} (hbody : d.body? name = none) {x : Definition}
    (hx : x ∈ d.definitions name) : (name, x) ∈ natives := by
  rw [h.definitions_eq, hbody, Option.map_none, Option.toList_none, List.append_nil] at hx
  exact mem_nativesOf.1 hx

/-- the definition that applies is native, or that of an installed body -/
theorem lookup_cases (h : Built natives d) {name : String} {s : Stack} {x : Definition}
    (hx : d.lookup name s = some x) : (name, x) ∈ natives ∨ ∃ b, d.body? name = some b ∧ x = .ofBody b := by
  rw [h.lookup_eq] at hx
  cases hfind : (nativesOf natives name).find? (·.validator.accepts s) with
  | some y =>
    rw [hfind] at hx
    cases hx
    exact .inl (mem_nativesOf.1 (List.mem_of_find?_eq_some hfind))
  | none =>
    rw [hfind] at hx
    obtain ⟨b, hb, rfl⟩ := Option.map_eq_some_iff.1 hx
    exact .inr ⟨b, hb, rfl⟩

end Built

end ReversePolish.Dictionary
