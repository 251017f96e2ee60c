/-
What evaluation can do to a machine, said once for every invariant.

`Change` lists the elementary changes: those that a word makes by itself (`Update`, and `Edit` for the bodies under
construction, each with the guard under which it is made), and what happens around words. `Evolves m m'` says that m'
comes from m by such changes, that the scopes and the depth of calls are back where they were, and that of the line
nothing but a first part was read. Results:
- `Evolves.keeps`: what every elementary change keeps, an evolution keeps;
- `Evolves.elsewhere`, `Evolves.rescope`: an evolution on another line or in other scopes, seen from this machine;
- `Evolves.settle`: a word is settled by changes.
-/
import Mathlib.Logic.Relation
import ReversePolish.Proofs.Machine.Step
import ReversePolish.Proofs.Token

namespace ReversePolish

/-- outside a compilation no body is open -/
theorem Machine.compilation_eq_of_idle {m : Machine} (h : m.isCompiling = false) : m.compilation = {} := by
  obtain ⟨frames, hf⟩ : ∃ frames, m.compilation = ⟨frames⟩ := ⟨_, rfl⟩
  cases frames with
  | nil => exact hf
  | cons b rest => simp [Machine.isCompiling, Compilation.isActive, hf] at h

/-! ## Elementary changes -/

/-- a change of the generator, of tracing or of the report -/
inductive Update : (Machine → Machine) → Prop
  | advance : Update fun m => { m with seed := Random.advance m.seed }
  | reseed (n : Int64) : Update fun m => { m with seed := Random.reseed n }
  | tracing (on : Bool) : Update fun m => { m with tracing := on }
  | record (e : Event) : Update (·.record e)

/-- a change of the bodies under construction -/
inductive Edit (m : Machine) : (Machine → Machine) → Prop
  /-- a definition is opened outside every other body, a loop also inside a body that has its name -/
  | start (kind : BodyKind) (named : m.compilation.needsIdent = false) (outer : kind = .word → m.isCompiling = false) :
    Edit m (·.mapCompilation (·.start kind))
  | name (word : String) (waiting : m.compilation.needsIdent = true) (fit : IsName word) :
    Edit m (·.mapCompilation (·.setIdent word))
  | capture (word : String) (active : m.isCompiling = true) (named : m.compilation.needsIdent = false)
    (plain : CompileWord.ofName? word = none) (known : m.Knows word) :
    Edit m (·.mapCompilation (·.append (.word word)))
  | literal (text : String) (active : m.isCompiling = true) (named : m.compilation.needsIdent = false)
    (unquoted : '"' ∉ text.toList) :
    Edit m (·.mapCompilation fun c => (c.append (.word stringWord)).append (.word text))
  | nest (b outer : Body) (rest : List Body) (frames : m.compilation.frames = b :: outer :: rest)
    (loop : b.kind = .loop) (named : b.ident ≠ "") :
    Edit m fun m => { m with compilation := ⟨outer.push (.block b) :: rest⟩ }
  /-- the outermost loop is closed, to be run -/
  | close (b : Body) (frames : m.compilation.frames = [b]) (loop : b.kind = .loop) (named : b.ident ≠ "") :
    Edit m fun m => { m with compilation := {} }
  | define (b : Body) (rest : List Body) (frames : m.compilation.frames = b :: rest) (word : b.kind = .word)
    (named : b.ident ≠ "") :
    Edit m fun m =>
      { m.record (.defined b.ident b.text) with compilation := ⟨rest⟩, dictionary := m.dictionary.install b }

inductive Change (m : Machine) : Machine → Prop
  | stack (s : Stack) : Change m { m with stack := s }
  | update {f : Machine → Machine} (h : Update f) : Change m (f m)
  | edit {f : Machine → Machine} (h : Edit m f) : Change m (f m)
  | input (text : List Char) : Change m { m with input := text }
  | status (text : String) : Change m { m with status := text }
  | locals (scopes : List (List (String × Value))) (depth : Nat) : Change m { m with scopes, callDepth := depth }
  | unwind : Change m (m.mapCompilation Compilation.unwind)

/-- the dictionary is changed by installed bodies only -/
theorem Change.dictionary {m m' : Machine} (h : Change m m') :
    m'.dictionary = m.dictionary ∨ ∃ b, b.ident ≠ "" ∧ m'.dictionary = m.dictionary.install b := by
  cases h with
  | update h => cases h <;> exact .inl rfl
  | edit h =>
    cases h with
    | define b rest frames word named => exact .inr ⟨b, named, rfl⟩
    | _ => exact .inl rfl
  | _ => exact .inl rfl

/-- a chain of elementary changes that gives the scopes and the depth of calls back, and reads on in the line -/
structure Evolves (m m' : Machine) : Prop where
  changes : Relation.ReflTransGen Change m m'
  scopes : m'.scopes = m.scopes
  callDepth : m'.callDepth = m.callDepth
  input : m'.input <:+ m.input

namespace Evolves

variable {m m' m'' : Machine}

theorem refl (m : Machine) : Evolves m m := ⟨.refl, rfl, rfl, List.suffix_refl _⟩

theorem trans (h : Evolves m m') (h' : Evolves m' m'') : Evolves m m'' :=
  ⟨h.changes.trans h'.changes, h'.scopes.trans h.scopes, h'.callDepth.trans h.callDepth, h'.input.trans h.input⟩

/-- a change of anything but the scopes, the depth of calls and the line -/
theorem single (h : Change m m') (hs : m'.scopes = m.scopes) (hd : m'.callDepth = m.callDepth)
    (hi : m'.input = m.input) : Evolves m m' :=
  ⟨.single h, hs, hd, hi ▸ List.suffix_refl _⟩

/-- what every elementary change keeps, an evolution keeps -/
theorem keeps {P : Machine → Prop} (hP : ∀ m m', Change m m' → P m → P m') (h : Evolves m m') (hm : P m) : P m' := by
  have hchanges := h.changes
  clear h
  induction hchanges with
  | refl => exact hm
  | tail _ hc ih => exact hP _ _ hc ih

/-- no elementary change touches the limit on calls -/
theorem maxCallDepth (h : Evolves m m') : m'.maxCallDepth = m.maxCallDepth := by
  refine h.keeps (P := fun n => n.maxCallDepth = m.maxCallDepth) ?_ rfl
  intro n n' hc hn
  cases hc with
  | update h => cases h <;> exact hn
  | edit h => cases h <;> exact hn
  | _ => exact hn

/-- what installed bodies keep of the dictionary, an evolution keeps -/
theorem keeps_dictionary {P : Dictionary → Prop} (hinstall : ∀ d b, b.ident ≠ "" → P d → P (d.install b))
    (h : Evolves m m') (hm : P m.dictionary) : P m'.dictionary := by
  refine h.keeps (P := fun n => P n.dictionary) ?_ hm
  intro n n' hc hn
  rcases hc.dictionary with hsame | ⟨b, hb, hinstalled⟩
  · rwa [hsame]
  · rw [hinstalled]
    exact hinstall _ b hb hn

theorem stack (m : Machine) (s : Stack) : Evolves m { m with stack := s } := single (.stack s) rfl rfl rfl

theorem update {f : Machine → Machine} (h : Update f) (m : Machine) : Evolves m (f m) := by
  refine single (.update h) ?_ ?_ ?_ <;> cases h <;> rfl

theorem edit {f : Machine → Machine} (h : Edit m f) : Evolves m (f m) := by
  refine single (.edit h) ?_ ?_ ?_ <;> cases h <;> rfl

theorem record (m : Machine) (e : Event) : Evolves m (m.record e) := update (.record e) m

theorem traced (m : Machine) (e : Event) : Evolves m (m.traced e) := by
  unfold Machine.traced
  split
  · exact record m e
  · exact refl m

theorem read (m : Machine) {rest : List Char} (h : rest <:+ m.input) : Evolves m { m with input := rest } :=
  ⟨.single (.input rest), rfl, rfl, h⟩

/-- what happens on another line, seen from the machine that returns to its own -/
theorem elsewhere {text : List Char} (h : Evolves { m with input := text } m') :
    Evolves m { m' with input := m.input } :=
  ⟨(h.changes.head (.input text)).tail (.input m.input), h.scopes, h.callDepth, List.suffix_refl _⟩

/-- what happens in some scopes, seen from others -/
theorem rescope (h : Evolves m m') (scopes : List (List (String × Value))) :
    Evolves { m with scopes } { m' with scopes } :=
  ⟨(h.changes.head (.locals m.scopes m.callDepth)).tail (.locals scopes m'.callDepth), rfl, h.callDepth, h.input⟩

/-- what happens in a call, seen from the caller -/
theorem returned {scopes : List (List (String × Value))}
    (h : Evolves { m with callDepth := m.callDepth + 1, scopes } m') :
    Evolves m { m' with callDepth := m'.callDepth - 1, scopes := m.scopes } := by
  refine ⟨(h.changes.head (.locals _ _)).tail (.locals m.scopes (m'.callDepth - 1)), rfl, ?_, h.input⟩
  have hdepth := h.callDepth
  dsimp only at hdepth ⊢
  omega

theorem settle (word : String) (fault : Option Fault) (m : Machine) : Evolves m (m.settle word fault) := by
  have hunwind : Evolves m (if fault.isSome then m.mapCompilation Compilation.unwind else m) := by
    split
    · exact single .unwind rfl rfl rfl
    · exact refl m
  simp only [Machine.settle]
  refine hunwind.trans ?_
  generalize (if fault.isSome then m.mapCompilation Compilation.unwind else m) = m₁
  have hstatus := (single (.status (statusLine word m₁.input fault)) rfl rfl rfl).trans
    (traced { m₁ with status := statusLine word m₁.input fault } (.done (statusLine word m₁.input fault)))
  refine hstatus.trans ?_
  split
  · exact read _ (List.nil_suffix)
  · exact refl _

end Evolves

end ReversePolish
