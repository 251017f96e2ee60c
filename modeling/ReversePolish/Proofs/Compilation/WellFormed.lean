/-
Names are checked while a body is under construction, once and for all.

`WellFormed d scope items` says what the check lets through: a text follows the word that opens it and has no quote in
it, every other word is a number that can be read, a name of the dictionary or a name bound around it, and every nested
body is a loop over a variable. `Machine.WellCompiled` says it of all installed bodies and of all open ones. Results:
- `WellFormed.mono`: well-formed items stay so while the dictionary grows;
- `Edit.wellCompiled`, `Change.wellCompiled`: every elementary change keeps a machine well compiled;
- `Reachable.wellCompiled`: every reachable machine is.
-/
import ReversePolish.Proofs.Session

namespace ReversePolish

/-! ## Well-formed items -/

/-- the items may run wherever the names of the scope are bound -/
abbrev WellFormed (d : Dictionary) : List String → List Item → Prop := Formed d.Knows

theorem Dictionary.Knows.mono {d d' : Dictionary} {scope scope' : List String} {word : String}
    (h : d.Knows scope word)
    (hsub : ∀ w, w ∈ scope ∨ d.contains w = true → w ∈ scope' ∨ d'.contains w = true) : d'.Knows scope' word := by
  rcases h with hnumber | ⟨hname, hknown⟩
  · exact .inl hnumber
  · exact .inr ⟨hname, hsub word hknown⟩

/-- names stay known while the dictionary grows -/
theorem WellFormed.mono {d d' : Dictionary} {scope scope' : List String} {items : List Item}
    (h : WellFormed d scope items)
    (hsub : ∀ w, w ∈ scope ∨ d.contains w = true → w ∈ scope' ∨ d'.contains w = true) :
    WellFormed d' scope' items := by
  induction h generalizing scope' with
  | nil scope => exact .nil scope'
  | text text unquoted rest ih => exact .text text unquoted (ih hsub)
  | word word plain known rest ih => exact .word word plain (known.mono hsub) (ih hsub)
  | loop ident fit inner rest ihInner ihRest =>
    refine .loop ident fit (ihInner fun w hw => ?_) (ihRest hsub)
    rcases hw with hw | hw
    · rcases List.mem_cons.1 hw with rfl | hw
      · exact .inl List.mem_cons_self
      · exact (hsub w (.inl hw)).imp_left (List.mem_cons_of_mem ident)
    · exact (hsub w (.inr hw)).imp_left (List.mem_cons_of_mem ident)

theorem Formed.append {ok : List String → String → Prop} {scope : List String} {items items' : List Item}
    (h : Formed ok scope items) (h' : Formed ok scope items') : Formed ok scope (items ++ items') := by
  induction h with
  | nil scope => exact h'
  | text text unquoted rest ih => exact .text text unquoted (ih h')
  | word word plain known rest ih => exact .word word plain known (ih h')
  | loop ident fit inner rest _ ih => exact .loop ident fit inner (ih h')

/-! ## Open bodies -/

/-- open bodies that all have their names, innermost first: a definition stands outside all others -/
inductive AllNamed (d : Dictionary) : List Body → Prop
  | nil : AllNamed d []
  | cons (kind : BodyKind) (ident : String) (items : List Item) {outer : List Body} (fit : IsName ident)
    (bottom : kind = .word → outer = []) (body : WellFormed d (ident :: outer.map Body.ident) items)
    (rest : AllNamed d outer) : AllNamed d (⟨kind, ident, items, []⟩ :: outer)

/-- open bodies, of which the innermost may still wait for its name -/
inductive OpenBodies (d : Dictionary) : List Body → Prop
  | named {frames : List Body} (h : AllNamed d frames) : OpenBodies d frames
  | waiting (kind : BodyKind) {outer : List Body} (bottom : kind = .word → outer = []) (h : AllNamed d outer) :
    OpenBodies d (Body.empty kind :: outer)

theorem AllNamed.locals {d : Dictionary} {frames : List Body} (h : AllNamed d frames) :
    ∀ b ∈ frames, b.locals = [] := by
  induction h with
  | nil => simp
  | cons kind ident items fit bottom body rest ih =>
    intro b hb
    rcases List.mem_cons.1 hb with rfl | hb
    · rfl
    · exact ih b hb

/-- all open bodies have their names once the innermost has -/
theorem OpenBodies.allNamed {d : Dictionary} {c : Compilation} (h : OpenBodies d c.frames)
    (hnamed : c.needsIdent = false) : AllNamed d c.frames := by
  obtain ⟨frames⟩ := c
  cases h with
  | named h => exact h
  | waiting kind bottom h => simp [Compilation.needsIdent, Body.empty] at hnamed

/-- more items in the innermost body -/
theorem AllNamed.push {d : Dictionary} {b : Body} {outer : List Body} (h : AllNamed d (b :: outer)) {items : List Item}
    (hitems : WellFormed d ((b :: outer).map Body.ident) items) : AllNamed d (b.pushAll items :: outer) := by
  cases h with
  | cons kind ident items' fit bottom body rest =>
    exact .cons kind ident (items' ++ items) fit bottom (body.append hitems) rest

/-- the innermost body gets its name -/
theorem OpenBodies.setIdent {d : Dictionary} {c : Compilation} (h : OpenBodies d c.frames)
    (hwaiting : c.needsIdent = true) {word : String} (hfit : IsName word) : OpenBodies d (c.setIdent word).frames := by
  obtain ⟨frames⟩ := c
  cases h with
  | named h =>
    cases h with
    | nil => simp [Compilation.needsIdent] at hwaiting
    | cons kind ident items fit bottom body rest =>
      exact absurd (by simpa [Compilation.needsIdent] using hwaiting) fit.1
  | waiting kind bottom h => exact .named (.cons kind word [] hfit bottom (.nil _) h)

/-! ## Machines -/

/-- a body is installed under the name -/
def Dictionary.Installed (d : Dictionary) (name : String) (b : Body) : Prop :=
  ∃ x ∈ d.definitions name, x.context.body? = some b

theorem Dictionary.Built.installed_iff {ns : List Named} {d : Dictionary} (h : d.Built ns) (name : String) (b : Body) :
    d.Installed name b ↔ d.body? name = some b := by
  constructor
  · rintro ⟨x, hx, hb⟩
    rw [h.definitions_eq, List.mem_append] at hx
    rcases hx with hx | hx
    · obtain ⟨e, he, rfl⟩ := List.mem_map.1 hx
      rw [h.bodiless e (List.mem_filter.1 he).1] at hb
      cases hb
    · cases hbody : d.body? name with
      | none => simp [hbody] at hx
      | some b' =>
        rw [hbody] at hx
        have hx' : x = .ofBody b' := by simpa using hx
        subst hx'
        exact hb
  · intro hb
    exact List.exists_of_findSome?_eq_some hb

/-- a body that is installed under a name, on top of a dictionary -/
structure WellInstalled (d : Dictionary) (name : String) (b : Body) : Prop where
  kind : b.kind = .word
  ident : b.ident = name
  locals : b.locals = []
  fit : IsName name
  items : WellFormed d [] b.items

/-- the dictionary holds the native words, and all installed and all open bodies are well formed -/
structure Machine.WellCompiled (m : Machine) : Prop where
  built : m.dictionary.Built natives
  bodies : ∀ name b, m.dictionary.body? name = some b → WellInstalled m.dictionary name b
  frames : OpenBodies m.dictionary m.compilation.frames

namespace Machine.WellCompiled

variable {m : Machine}

/-- other open bodies on the same dictionary -/
theorem withFrames (h : m.WellCompiled) {frames : List Body} (hframes : OpenBodies m.dictionary frames) :
    { m with compilation := ⟨frames⟩ }.WellCompiled :=
  ⟨h.built, h.bodies, hframes⟩

/-- a finished definition is installed, and nothing that was well formed stops being so -/
theorem install (h : m.WellCompiled) {b : Body} {rest : List Body} (hframes : m.compilation.frames = b :: rest)
    (hword : b.kind = .word) (hnamed : b.ident ≠ "") :
    { m with compilation := ⟨rest⟩, dictionary := m.dictionary.install b }.WellCompiled := by
  have hopen : AllNamed m.dictionary (b :: rest) := by
    have hneeds : m.compilation.needsIdent = false := by
      rw [show m.compilation = ⟨b :: rest⟩ from congrArg Compilation.mk hframes]
      simpa [Compilation.needsIdent] using hnamed
    simpa [hframes] using h.frames.allNamed hneeds
  cases hopen with
  | cons kind ident items fit bottom body outer =>
    subst hword
    obtain rfl := bottom rfl
    have hgrows (w : String) (hw : m.dictionary.contains w = true) :
        (m.dictionary.install ⟨.word, ident, items, []⟩).contains w = true :=
      (Dictionary.contains_install h.built.proper hnamed w).2 (.inr hw)
    refine ⟨h.built.install hnamed, fun name b hb => ?_, .named .nil⟩
    rw [h.built.body?_install hnamed] at hb
    split at hb
    · rename_i heq
      cases hb
      refine ⟨rfl, heq, rfl, heq ▸ fit, body.mono fun w hw => ?_⟩
      rcases hw with hw | hw
      · have hident : w = ident := by simpa using hw
        exact .inr ((Dictionary.contains_install h.built.proper hnamed w).2 (.inl hident.symm))
      · exact .inr (hgrows w hw)
    · obtain ⟨hkind, hident, hlocals, hfit, hitems⟩ := h.bodies name b hb
      exact ⟨hkind, hident, hlocals, hfit, hitems.mono fun w hw => hw.imp_right (hgrows w)⟩

end Machine.WellCompiled

/-- a change of the open bodies keeps a machine well compiled -/
theorem Edit.wellCompiled {m : Machine} {f : Machine → Machine} (h : Edit m f) (hm : m.WellCompiled) :
    (f m).WellCompiled := by
  -- while items are captured, the open bodies all have their names
  have hcapturing (active : m.isCompiling = true) (named : m.compilation.needsIdent = false) :
      ∃ b outer, m.compilation = ⟨b :: outer⟩ ∧ AllNamed m.dictionary (b :: outer) := by
    obtain ⟨b, outer, hf⟩ := Machine.frames_of_compiling active
    have hall := hm.frames.allNamed named
    rw [hf] at hall
    exact ⟨b, outer, hf, hall⟩
  cases h with
  | start kind named outer =>
    refine hm.withFrames (.waiting kind (fun hkind => ?_) (hm.frames.allNamed named))
    simp [Machine.compilation_eq_of_idle (outer hkind)]
  | name word waiting fit => exact hm.withFrames (hm.frames.setIdent waiting fit)
  | capture word active named plain known =>
    obtain ⟨b, outer, hf, hall⟩ := hcapturing active named
    have hknown := (Machine.knows_iff hf hall.locals word).1 known
    have hmap : m.mapCompilation (·.append (.word word)) =
        { m with compilation := ⟨b.pushAll [.word word] :: outer⟩ } := by
      simp only [Machine.mapCompilation, hf, Compilation.append, Compilation.onInnermost, Body.push, Body.pushAll]
    dsimp only
    rw [hmap]
    exact hm.withFrames (.named (hall.push (.word word plain hknown (.nil _))))
  | literal text active named unquoted =>
    obtain ⟨b, outer, hf, hall⟩ := hcapturing active named
    have hmap : m.mapCompilation (fun c => (c.append (.word stringWord)).append (.word text)) =
        { m with compilation := ⟨b.pushAll [.word stringWord, .word text] :: outer⟩ } := by
      simp [Machine.mapCompilation, hf, Compilation.append, Compilation.onInnermost, Body.push, Body.pushAll]
    dsimp only
    rw [hmap]
    exact hm.withFrames (.named (hall.push (.text text unquoted (.nil _))))
  | nest b outer rest frames loop named =>
    have hneeds : m.compilation.needsIdent = false := by
      rw [show m.compilation = ⟨b :: outer :: rest⟩ from congrArg Compilation.mk frames]
      simpa [Compilation.needsIdent] using named
    have hall := hm.frames.allNamed hneeds
    rw [frames] at hall
    cases hall with
    | cons kind ident items fit bottom body hrest =>
      subst loop
      exact hm.withFrames (.named (hrest.push (.loop ident fit body (.nil _))))
  | close b frames loop named => exact hm.withFrames (.named .nil)
  | define b rest frames word named =>
    have hinstalled := hm.install frames word named
    exact ⟨hinstalled.built, hinstalled.bodies, hinstalled.frames⟩

/-- every elementary change does -/
theorem Change.wellCompiled {m m' : Machine} (h : Change m m') (hm : m.WellCompiled) : m'.WellCompiled := by
  cases h with
  | edit h => exact h.wellCompiled hm
  | unwind => exact hm.withFrames (.named .nil)
  | update h => cases h <;> exact ⟨hm.built, hm.bodies, hm.frames⟩
  | _ => exact ⟨hm.built, hm.bodies, hm.frames⟩

theorem Evolves.wellCompiled {m m' : Machine} (h : Evolves m m') (hm : m.WellCompiled) : m'.WellCompiled :=
  h.keeps (P := Machine.WellCompiled) (fun _ _ hc => hc.wellCompiled) hm

/-! ## The standard words -/

theorem wellFormed_words {d : Dictionary} (hd : d.Built natives) {words : List String}
    (h : ∀ w ∈ words, Usable natives w) : WellFormed d [] (words.map Item.word) := by
  induction words with
  | nil => exact .nil _
  | cons w words ih =>
    obtain ⟨-, hplain, hknown⟩ := h w (by simp)
    refine .word w hplain ?_ (ih fun w' hw' => h w' (List.mem_cons_of_mem _ hw'))
    rcases hknown with ⟨hname, hnative⟩ | hnumber
    · exact hd.knows [] hname hnative
    · exact .inl hnumber

set_option maxRecDepth 4000 in
/-- the words that standard packages define in source use native words and one number -/
theorem sourceWords_usable :
    ∀ b ∈ typesSourceWords.reverse ++ stackSourceWords.reverse,
      IsName b.ident ∧ ∃ words, b = .ofWords b.ident words ∧ ∀ w ∈ words, Usable natives w := by
  have hnative : ∀ w ∈ ["DUPN", "DROP", "VEC3->", "->\x7by\x7d", "SWAP", "->\x7bx\x7d", "+"], Usable natives w :=
    usable_natives (by decide +kernel)
  have htwo := usable_two natives
  have hfit : ∀ b ∈ typesSourceWords.reverse ++ stackSourceWords.reverse, IsName b.ident := by
    unfold IsName
    decide
  intro b hb
  refine ⟨hfit b hb, ?_⟩
  simp only [typesSourceWords, stackSourceWords, List.reverse_cons, List.reverse_nil, List.nil_append, List.cons_append,
    List.mem_cons, List.not_mem_nil, or_false] at hb
  rcases hb with rfl | rfl | rfl | rfl
  · exact ⟨_, rfl, fun w hw => hnative w (by revert w; decide)⟩
  · exact ⟨_, rfl, fun w hw => hnative w (by revert w; decide)⟩
  · exact ⟨_, rfl, fun w hw => hnative w (by revert w; decide)⟩
  · refine ⟨_, rfl, fun w hw => ?_⟩
    rcases List.mem_cons.1 hw with rfl | hw
    · exact htwo
    · exact hnative w (by revert w; decide)

/-- **Checked names.** In every reachable machine all installed bodies and all open bodies are well formed. -/
theorem Reachable.wellCompiled {m : Machine} (h : Reachable m) : m.WellCompiled := by
  refine h.keeps (P := Machine.WellCompiled) ?_ (fun _ _ hev hm => hev.wellCompiled hm) ?_
  · intro s dictionary status log hholds
    refine ⟨hholds.built, fun name b hb => ?_, .named .nil⟩
    obtain ⟨hmem, hident⟩ := hholds.bodies name b hb
    obtain ⟨hfit, words, hwords, husable⟩ := sourceWords_usable b hmem
    rw [hwords]
    exact ⟨rfl, hident, rfl, hident ▸ hfit, wellFormed_words hholds.built husable⟩
  · exact fun m stack tracing maxCallDepth hm => ⟨hm.built, hm.bodies, hm.frames⟩

/-- no body is installed under the name of a word that acts while compiling -/
theorem Reachable.body?_eq_none {m : Machine} (h : Reachable m) {name : String} {w : CompileWord}
    (hacts : CompileWord.ofName? name = some w) : m.dictionary.body? name = none := by
  cases hb : m.dictionary.body? name with
  | none => rfl
  | some b => cases hacts.symm.trans (h.wellCompiled.bodies name b hb).fit.2.2

end ReversePolish
