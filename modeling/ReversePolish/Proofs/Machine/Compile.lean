/-
What a word does while a body is under construction.

`CompileStep` lists what there is to do, and `Compiles` which word does what, given the innermost open body and those
around it. Nothing else opens the functions that act while compiling. Results:
- `compileWord_eq`, `exists_compiles`: a word does what `Compiles` says, and `Compiles` covers all words;
- `Compiles.congr`: only the open bodies, and whether the word is in the dictionary, decide what it does;
- `takeUntil_bind`, `takeUntil_bind_missing`: words that take text up to a delimiter.
-/
import ReversePolish.Proofs.Machine.Change

namespace ReversePolish

variable {answer : Answer} {m n : Machine} {word : String} {b : Body} {rest : List Body}

/-! ## Open bodies -/

/-- an active compilation has an innermost body -/
theorem Machine.frames_of_compiling (h : m.isCompiling = true) : ∃ b rest, m.compilation = ⟨b :: rest⟩ := by
  obtain ⟨frames, hf⟩ : ∃ frames, m.compilation = ⟨frames⟩ := ⟨_, rfl⟩
  cases frames with
  | nil => simp [Machine.isCompiling, Compilation.isActive, hf] at h
  | cons b rest => exact ⟨b, rest, hf⟩

theorem Machine.isCompiling_of_frames (frames : m.compilation = ⟨b :: rest⟩) : m.isCompiling = true := by
  rw [Machine.isCompiling, frames]
  rfl

theorem Machine.needsIdent_of_empty (frames : m.compilation = ⟨b :: rest⟩) (waiting : b.ident = "") :
    m.compilation.needsIdent = true := by
  rw [frames]
  simp [Compilation.needsIdent, waiting]

theorem Machine.needsIdent_of_named (frames : m.compilation = ⟨b :: rest⟩) (named : b.ident ≠ "") :
    m.compilation.needsIdent = false := by
  rw [frames]
  simpa [Compilation.needsIdent] using named

/-! ## Steps -/

inductive CompileStep where
  | fail (fault : Fault)
  /-- the open bodies are changed -/
  | edit (f : Machine → Machine)
  /-- text is taken from the line up to a delimiter, and put where it belongs -/
  | take (delimiter : Char) (missing : Fault) (f : String → Machine → Machine)
  /-- the outermost loop is closed and run -/
  | loop (b : Body)

def CompileStep.run (answer : Answer) : CompileStep → MachineM Unit
  | .fail fault => throw fault
  | .edit f => modify f
  | .take delimiter missing f => do
    let text ← Machine.takeUntil delimiter missing
    modify (f text)
  | .loop b => fun m => answer (.body b) { m with compilation := {} }

/-- the step that a word makes where b is the innermost open body and the rest are around it -/
inductive Compiles (m : Machine) (word : String) (b : Body) (rest : List Body) : CompileStep → Prop
  | name (waiting : b.ident = "") (fit : IsName word) :
    Compiles m word b rest (.edit (·.mapCompilation (·.setIdent word)))
  | badName (waiting : b.ident = "")
    (unfit : (Token.isNumeric word.toList || (CompileWord.ofName? word).isSome) = true) :
    Compiles m word b rest (.fail (.badName word))
  | comment (named : b.ident ≠ "") (opens : word = "(") :
    Compiles m word b rest (.take ')' .unterminatedComment fun _ => id)
  | literal (named : b.ident ≠ "") (opens : word = stringWord) :
    Compiles m word b rest (.take '"' .unterminatedString fun text =>
      (·.mapCompilation fun c => (c.append (.word stringWord)).append (.word text)))
  | start (named : b.ident ≠ "") (opens : word = "FOR") :
    Compiles m word b rest (.edit (·.mapCompilation (·.start .loop)))
  | define (named : b.ident ≠ "") (ends : word = ";") (kind : b.kind = .word) :
    Compiles m word b rest (.edit fun m =>
      { m.record (.defined b.ident b.text) with compilation := ⟨rest⟩, dictionary := m.dictionary.install b })
  | unmatchedEnd (named : b.ident ≠ "") (ends : word = ";") (kind : b.kind ≠ .word) :
    Compiles m word b rest (.fail .unmatchedEnd)
  | nest (outer : Body) (others : List Body) (around : rest = outer :: others) (named : b.ident ≠ "")
    (closes : word = "NEXT") (kind : b.kind = .loop) :
    Compiles m word b rest (.edit ({ · with compilation := ⟨outer.push (.block b) :: others⟩ }))
  | close (outermost : rest = []) (named : b.ident ≠ "") (closes : word = "NEXT") (kind : b.kind = .loop) :
    Compiles m word b rest (.loop b)
  | unmatchedNext (named : b.ident ≠ "") (closes : word = "NEXT") (kind : b.kind ≠ .loop) :
    Compiles m word b rest (.fail .unmatchedNext)
  | capture (named : b.ident ≠ "") (plain : CompileWord.ofName? word = none) (known : m.Knows word) :
    Compiles m word b rest (.edit (·.mapCompilation (·.append (.word word))))
  | unread (named : b.ident ≠ "") (plain : CompileWord.ofName? word = none)
    (malformed : Token.literal word.toList = .malformed) : Compiles m word b rest (.fail (.malformedNumber word))
  | unknown (named : b.ident ≠ "") (plain : CompileWord.ofName? word = none) (unknown : ¬ m.Knows word)
    (name : Token.literal word.toList = .name) (absent : m.dictionary.contains word = false) :
    Compiles m word b rest (.fail (.notFound word))

/-- **Words inside a compilation.** Each does what `Compiles` says. -/
theorem compileWord_eq (hframes : m.compilation = ⟨b :: rest⟩) {step : CompileStep} (h : Compiles m word b rest step)
    (answer : Answer) : compileWord answer word m = step.run answer m := by
  have hwait := Machine.needsIdent_of_empty hframes
  have hacts {w : CompileWord} (named : b.ident ≠ "") (hw : CompileWord.ofName? word = some w) :
      compileWord answer word m = w.run answer m := compileWord_acts (Machine.needsIdent_of_named hframes named) hw
  cases h with
  | name waiting fit =>
    rw [compileWord_waiting (hwait waiting), captureIdent, fit.2.1, fit.2.2]
    rfl
  | badName waiting unfit =>
    rw [compileWord_waiting (hwait waiting), captureIdent, unfit]
    rfl
  | comment named opens => exact hacts (w := .comment) named (opens ▸ rfl)
  | literal named opens => exact hacts (w := .string) named (opens ▸ rfl)
  | start named opens => exact hacts (w := .loop) named (opens ▸ rfl)
  | define named ends kind =>
    rw [hacts (w := .endDefinition) named (ends ▸ rfl), CompileWord.run, CompileWord.finishDefinition, hframes]
    exact if_pos kind
  | unmatchedEnd named ends kind =>
    rw [hacts (w := .endDefinition) named (ends ▸ rfl), CompileWord.run, CompileWord.finishDefinition, hframes]
    exact if_neg kind
  | nest outer others around named closes kind =>
    subst around
    rw [hacts (w := .next) named (closes ▸ rfl), CompileWord.run, CompileWord.finishLoop, hframes]
    exact if_pos kind
  | close outermost named closes kind =>
    subst outermost
    rw [hacts (w := .next) named (closes ▸ rfl), CompileWord.run, CompileWord.finishLoop, hframes]
    exact if_pos kind
  | unmatchedNext named closes kind =>
    rw [hacts (w := .next) named (closes ▸ rfl), CompileWord.run, CompileWord.finishLoop, hframes]
    exact if_neg kind
  | capture named plain known => exact compileWord_plain (Machine.needsIdent_of_named hframes named) plain known
  | unread named plain malformed =>
    have hunknown : ¬ m.Knows word := by simp [Machine.Knows, malformed]
    rcases compileWord_unknown (Machine.needsIdent_of_named hframes named) plain hunknown with ⟨-, h⟩ | ⟨⟨hname, -⟩, -⟩
    · exact h
    · cases malformed.symm.trans hname
  | unknown named plain unknown name absent =>
    rcases compileWord_unknown (Machine.needsIdent_of_named hframes named) plain unknown with ⟨hmal, -⟩ | ⟨-, h⟩
    · cases hmal.symm.trans name
    · exact h

/-- every word makes some step -/
theorem exists_compiles (hword : word ≠ "") (m : Machine) (b : Body) (rest : List Body) :
    ∃ step, Compiles m word b rest step := by
  by_cases named : b.ident = ""
  · cases hfit : Token.isNumeric word.toList || (CompileWord.ofName? word).isSome with
    | true => exact ⟨_, .badName named hfit⟩
    | false =>
      simp only [Bool.or_eq_false_iff, Option.isSome_eq_false_iff, Option.isNone_iff_eq_none] at hfit
      exact ⟨_, .name named ⟨hword, hfit⟩⟩
  · cases hw : CompileWord.ofName? word with
    | none =>
      by_cases known : m.Knows word
      · exact ⟨_, .capture named hw known⟩
      · rcases checkKnown_of_not_knows known with ⟨malformed, -⟩ | ⟨⟨name, absent⟩, -⟩
        · exact ⟨_, .unread named hw malformed⟩
        · exact ⟨_, .unknown named hw known name absent⟩
    | some w =>
      have hname := CompileWord.ofName?_eq_some hw
      cases w with
      | endDefinition =>
        by_cases kind : b.kind = .word
        · exact ⟨_, .define named hname kind⟩
        · exact ⟨_, .unmatchedEnd named hname kind⟩
      | comment => exact ⟨_, .comment named hname⟩
      | string => exact ⟨_, .literal named hname⟩
      | loop => exact ⟨_, .start named hname⟩
      | next =>
        by_cases kind : b.kind = .loop
        · cases rest with
          | nil => exact ⟨_, .close rfl named hname kind⟩
          | cons outer others => exact ⟨_, .nest outer others rfl named hname kind⟩
        · exact ⟨_, .unmatchedNext named hname kind⟩

/-- of the machine, a word looks at the open bodies, and whether the dictionary has it -/
theorem Compiles.congr {step : CompileStep} (h : Compiles m word b rest step) (hc : n.compilation = m.compilation)
    (hd : n.dictionary.contains word = m.dictionary.contains word) : Compiles n word b rest step := by
  have hknows : n.Knows word ↔ m.Knows word := by rw [Machine.Knows, Machine.Knows, hc, hd]
  cases h with
  | name waiting fit => exact .name waiting fit
  | badName waiting unfit => exact .badName waiting unfit
  | comment named opens => exact .comment named opens
  | literal named opens => exact .literal named opens
  | start named opens => exact .start named opens
  | define named ends kind => exact .define named ends kind
  | unmatchedEnd named ends kind => exact .unmatchedEnd named ends kind
  | nest outer others around named closes kind => exact .nest outer others around named closes kind
  | close outermost named closes kind => exact .close outermost named closes kind
  | unmatchedNext named closes kind => exact .unmatchedNext named closes kind
  | capture named plain known => exact .capture named plain (hknows.2 known)
  | unread named plain malformed => exact .unread named plain malformed
  | unknown named plain unknown name absent =>
    exact .unknown named plain (mt hknows.1 unknown) name (hd.trans absent)

/-- a step that changes the open bodies makes an elementary change -/
theorem Compiles.edit {f : Machine → Machine} (h : Compiles m word b rest (.edit f))
    (hframes : m.compilation = ⟨b :: rest⟩) : Edit m f := by
  have hactive := Machine.isCompiling_of_frames hframes
  have hlist : m.compilation.frames = b :: rest := by rw [hframes]
  have hneeds (named : b.ident ≠ "") := Machine.needsIdent_of_named hframes named
  cases h with
  | name waiting fit => exact .name word (Machine.needsIdent_of_empty hframes waiting) fit
  | start named opens => exact .start .loop (hneeds named) (by simp)
  | define named ends kind => exact .define b rest hlist kind named
  | nest outer others around named closes kind => exact .nest b outer others (around ▸ hlist) kind named
  | capture named plain known => exact .capture word hactive (hneeds named) plain known

/-! ## Words that take text from the line -/

theorem takeUntil_some {c : Char} {taken after : List Char} (h : Token.takeUntil c m.input = some (taken, after))
    (missing : Fault) : Machine.takeUntil c missing m = .ok (String.ofList taken) { m with input := after } := by
  rw [Machine.takeUntil, h]

theorem takeUntil_none {c : Char} (h : Token.takeUntil c m.input = none) (missing : Fault) :
    Machine.takeUntil c missing m = .error missing m := by
  rw [Machine.takeUntil, h]

/-- the text up to the delimiter goes on to the next step -/
theorem takeUntil_bind {α : Type} {c : Char} {taken after : List Char}
    (h : Token.takeUntil c m.input = some (taken, after)) (missing : Fault) (f : String → MachineM α) :
    (Machine.takeUntil c missing >>= f) m = f (String.ofList taken) { m with input := after } := by
  change EStateM.bind _ _ _ = _
  simp only [EStateM.bind, takeUntil_some h]

/-- without the delimiter nothing is taken -/
theorem takeUntil_bind_missing {α : Type} {c : Char} (h : Token.takeUntil c m.input = none) (missing : Fault)
    (f : String → MachineM α) : (Machine.takeUntil c missing >>= f) m = .error missing m := by
  change EStateM.bind _ _ _ = _
  simp only [EStateM.bind, takeUntil_none h]

end ReversePolish
