/-
What single words do, case by case.

Every function of the evaluator that looks at the machine before it acts is given by one equation for each case, so that
nothing else opens it: `runWord` outside a compilation, `compileWord` and `checkKnown` inside one, `evalWord` for both,
`runItemWord` for the words of a body, and `inBody`, `inLoop` and `inCall` for loops and calls. A step that runs another
one on a changed machine, and then gives a part of the machine back, is given as a map of results.
-/
import ReversePolish.Machine.Run
import ReversePolish.Proofs.Machine.Outcome

namespace ReversePolish

variable {answer : Answer} {m : Machine} {word : String}

/-- a step that looks at the machine first -/
theorem get_bind (f : Machine → MachineM Unit) : (get >>= f) m = f m m := rfl

theorem bind_of_ok {m m' : Machine} {x : MachineM Unit} {f : Unit → MachineM Unit} (hr : x m = .ok () m') :
    (x >>= f) m = f () m' := by
  change EStateM.bind x f m = _
  unfold EStateM.bind
  rw [hr]

theorem bind_of_error {m m' : Machine} {x : MachineM Unit} {f : Unit → MachineM Unit} {e : Fault}
    (hr : x m = .error e m') : (x >>= f) m = .error e m' := by
  change EStateM.bind x f m = _
  unfold EStateM.bind
  rw [hr]

/-! ## Words outside a compilation -/

theorem runWord_number {v : Value} (h : Token.literal word.toList = .number v) :
    runWord answer word m = Machine.push v m := by
  unfold runWord
  rw [h]

theorem runWord_malformed (h : Token.literal word.toList = .malformed) :
    runWord answer word m = .error (.malformedNumber word) m := by
  unfold runWord
  rw [h]
  rfl

/-- the first definition that accepts the stack runs -/
theorem runWord_lookup {d : Definition} (hname : Token.literal word.toList = .name)
    (hlookup : m.dictionary.lookup word m.stack = some d) : runWord answer word m = d.run answer m := by
  unfold runWord
  rw [hname]
  change (get >>= _ : MachineM Unit) m = _
  rw [get_bind, hlookup]

theorem runWord_unmatched (hname : Token.literal word.toList = .name)
    (hlookup : m.dictionary.lookup word m.stack = none) :
    runWord answer word m = .error (if m.dictionary.contains word then .noMatch word else .notFound word) m := by
  unfold runWord
  rw [hname]
  change (get >>= _ : MachineM Unit) m = _
  rw [get_bind, hlookup]
  rfl

/-! ## Words inside a compilation -/

/-- can the word name a body? Numbers and the words that act while compiling cannot. -/
def IsName (word : String) : Prop :=
  word ≠ "" ∧ Token.isNumeric word.toList = false ∧ CompileWord.ofName? word = none

/-- the name of a word that acts while compiling -/
def CompileWord.name : CompileWord → String
  | .endDefinition => ";"
  | .comment => "("
  | .string => stringWord
  | .loop => "FOR"
  | .next => "NEXT"

theorem CompileWord.ofName?_eq_some {w : CompileWord} (h : CompileWord.ofName? word = some w) : word = w.name := by
  unfold CompileWord.ofName? at h
  split at h
  · cases h; assumption
  · split at h
    · cases h; assumption
    · split at h
      · cases h; assumption
      · split at h
        · cases h; assumption
        · split at h
          · cases h; assumption
          · cases h

/-- a word that does not act while compiling does not open a text -/
theorem ne_stringWord (h : CompileWord.ofName? word = none) : word ≠ stringWord := by
  rintro rfl
  cases h

/-- a word that may be captured: a number, or a name that an open body or the dictionary gives a meaning -/
def Machine.Knows (m : Machine) (word : String) : Prop :=
  (∃ v, Token.literal word.toList = .number v) ∨
    Token.literal word.toList = .name ∧ (m.compilation.isLocal word = true ∨ m.dictionary.contains word = true)

theorem checkKnown_of_knows (h : m.Knows word) : checkKnown word m = .ok () m := by
  unfold checkKnown
  rcases h with ⟨v, hv⟩ | ⟨hname, hknown⟩
  · rw [hv]
    rfl
  · rw [hname]
    change (if m.compilation.isLocal word || m.dictionary.contains word then pure () else
      throw (.notFound word) : MachineM Unit) m = _
    rw [if_pos (by simpa using hknown)]
    rfl

/-- a word that is not known is a number out of range or malformed, or a name that nothing gives a meaning -/
theorem checkKnown_of_not_knows (h : ¬ m.Knows word) :
    Token.literal word.toList = .malformed ∧ checkKnown word m = .error (.malformedNumber word) m ∨
      (Token.literal word.toList = .name ∧ m.dictionary.contains word = false) ∧
        checkKnown word m = .error (.notFound word) m := by
  unfold checkKnown
  cases hl : Token.literal word.toList with
  | number v => exact absurd (.inl ⟨v, hl⟩) h
  | malformed => exact .inl ⟨rfl, rfl⟩
  | name =>
    have hunknown : (m.compilation.isLocal word || m.dictionary.contains word) = false := by
      rw [← Bool.not_eq_true, Bool.or_eq_true]
      exact fun hknown => h (.inr ⟨hl, hknown⟩)
    refine .inr ⟨⟨rfl, (Bool.or_eq_false_iff.1 hunknown).2⟩, ?_⟩
    change (if m.compilation.isLocal word || m.dictionary.contains word then pure () else
      throw (.notFound word) : MachineM Unit) m = _
    rw [hunknown]
    rfl

theorem compileWord_waiting (hwait : m.compilation.needsIdent = true) :
    compileWord answer word m = captureIdent word m := by
  change (if m.compilation.needsIdent then captureIdent word else _ : MachineM Unit) m = _
  rw [if_pos hwait]

theorem compileWord_acts {w : CompileWord} (hnamed : m.compilation.needsIdent = false)
    (hw : CompileWord.ofName? word = some w) : compileWord answer word m = w.run answer m := by
  change (if m.compilation.needsIdent then captureIdent word else _ : MachineM Unit) m = _
  rw [hnamed, hw]
  rfl

/-- a word that does not act while compiling is checked and then captured -/
theorem compileWord_checks (hnamed : m.compilation.needsIdent = false) (hw : CompileWord.ofName? word = none) :
    compileWord answer word m =
      (checkKnown word >>= fun _ => modify (·.mapCompilation (·.append (.word word))) : MachineM Unit) m := by
  change (if m.compilation.needsIdent then captureIdent word else _ : MachineM Unit) m = _
  rw [hnamed, hw]
  rfl

theorem compileWord_plain (hnamed : m.compilation.needsIdent = false) (hw : CompileWord.ofName? word = none)
    (hknown : m.Knows word) :
    compileWord answer word m = .ok () (m.mapCompilation (·.append (.word word))) := by
  rw [compileWord_checks hnamed hw]
  change EStateM.bind (checkKnown word) _ m = _
  simp only [EStateM.bind, checkKnown_of_knows hknown]
  rfl

theorem compileWord_unknown (hnamed : m.compilation.needsIdent = false) (hw : CompileWord.ofName? word = none)
    (hunknown : ¬ m.Knows word) :
    Token.literal word.toList = .malformed ∧ compileWord answer word m = .error (.malformedNumber word) m ∨
      (Token.literal word.toList = .name ∧ m.dictionary.contains word = false) ∧
        compileWord answer word m = .error (.notFound word) m := by
  rw [compileWord_checks hnamed hw]
  change _ ∧ EStateM.bind (checkKnown word) _ m = _ ∨ _ ∧ EStateM.bind (checkKnown word) _ m = _
  refine (checkKnown_of_not_knows hunknown).imp (And.imp_right fun h => ?_) (And.imp_right fun h => ?_) <;>
    simp only [EStateM.bind, h]

/-! ## Words, loops and calls -/

/-- tracing changes the report at most -/
theorem Machine.traced_eq (m : Machine) (e : Event) : ∃ log, m.traced e = { m with log } := by
  unfold Machine.traced
  split
  · exact ⟨_, rfl⟩
  · exact ⟨m.log, rfl⟩

theorem settled_ok (word : String) (a : Unit) (m : Machine) :
    settled word (.ok a m) = .ok () (m.settle word none) := rfl

theorem settled_error (word : String) (f : Fault) (m : Machine) :
    settled word (.error f m) = .error f (m.settle word (some f)) := rfl

theorem evalWord_eq (hword : word ≠ "") (m : Machine) :
    evalWord answer word m =
      settled word ((if (m.traced (.word word (String.ofList m.input))).isCompiling then compileWord answer word
        else runWord answer word) (m.traced (.word word (String.ofList m.input)))) := by
  unfold evalWord
  rw [if_neg (by simpa using hword)]

theorem withInput_eq (text : List Char) (x : MachineM Unit) (m : Machine) :
    Machine.withInput text x m = onLine m.input (x { m with input := text }) := rfl

/-- a word between two lines is a word of a line that starts with the rest it is given -/
theorem evalOne_eq (word rest : String) (m : Machine) :
    (Machine.evalOne word rest m).1 =
      Machine.withInput rest.toList (evalWord (answerUpTo m.allowance) word) m := by
  rw [withInput_eq]
  unfold Machine.evalOne
  cases evalWord (answerUpTo m.allowance) word { m with input := rest.toList } <;> rfl

theorem runItemWord_local {v : Value} (h : m.findLocal? word = some v) :
    runItemWord answer word m = Machine.push v m := by
  unfold runItemWord
  rw [get_bind, h]

theorem runItemWord_global (h : m.findLocal? word = none) :
    runItemWord answer word m = Machine.withInput [] (evalWord answer word) m := by
  unfold runItemWord
  rw [get_bind, h]

/-- a loop takes its bounds, and then makes its passes in a scope of its own -/
theorem inLoop_eq (b : Body) (x : MachineM Unit) :
    inLoop b x = (MachineM.ofEffect popBounds >>= fun bounds m =>
      unscoped (passes b.ident x bounds.2 bounds.1 { m with scopes := b.locals :: m.scopes }) : MachineM Unit) := rfl

theorem inLoop_of_bounds {start stop : Float} {m' : Machine} (h : MachineM.ofEffect popBounds m = .ok (start, stop) m')
    (b : Body) (x : MachineM Unit) :
    inLoop b x m = unscoped (passes b.ident x stop start { m' with scopes := b.locals :: m'.scopes }) := by
  rw [inLoop_eq]
  change EStateM.bind _ _ _ = _
  simp only [EStateM.bind, h]

section Passes

variable {ident : String} {x : MachineM Unit} {stop count : Float}

theorem passes_end (h : ¬ count < stop) : passes ident x stop count m = .ok () m := by
  rw [passes, dif_neg h]

/-- a pass, and the others after it -/
theorem passes_next {m' : Machine} (h : count < stop) (hpass : x (m.bindLocal ident (.double count)) = .ok () m')
    (moves : count < count + 1.0) : passes ident x stop count m = passes ident x stop (count + 1.0) m' := by
  rw [passes, dif_pos h, hpass]
  exact dif_pos moves

theorem passes_error {m' : Machine} {f : Fault} (h : count < stop)
    (hpass : x (m.bindLocal ident (.double count)) = .error f m') :
    passes ident x stop count m = .error f m' := by
  rw [passes, dif_pos h, hpass]

end Passes

theorem inCall_eq {b : Body} (h : m.callDepth < m.maxCallDepth) (x : MachineM Unit) :
    inCall b x m = returned m.scopes (x { m with callDepth := m.callDepth + 1, scopes := [b.locals] }) := by
  unfold inCall
  rw [if_neg (by omega)]

/-- a call at the limit is refused before anything is done -/
theorem inCall_refused (h : m.maxCallDepth ≤ m.callDepth) (b : Body) (x : MachineM Unit) :
    inCall b x m = .error (.callDepth b.ident m.maxCallDepth) m := by
  unfold inCall
  rw [if_pos h]

theorem inBody_word {b : Body} (h : b.kind = .word) (x : MachineM Unit) : inBody b x = inCall b x := by
  rw [inBody, h]

theorem inBody_loop {b : Body} (h : b.kind = .loop) (x : MachineM Unit) : inBody b x = inLoop b x := by
  rw [inBody, h]

theorem evalLine_onLine (line : List Char) :
    evalLine answer line m = onLine m.input (reported (evalWords answer line.length { m with input := line })) := rfl

end ReversePolish
