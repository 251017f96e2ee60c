/-
What can go wrong when a checked body runs.

A fault is clean if a well-formed body may raise it: it is about the operands, a refused call, a loop that cannot count
on, or the use of a structural word. Results:
- `runItems_clean`: well-formed items, run where their names are bound, raise clean faults only, whatever they call;
- `compiled_bodies_sound`: in every reachable machine all bodies are well formed, installed bodies and closed loops
  never meet an unknown name, and no evaluation meets a missing text or a missing body.
-/
import ReversePolish.Proofs.Compilation.WellFormed
import ReversePolish.Proofs.Word.Draw

namespace ReversePolish

theorem Fault.isClean_of_isOperand {f : Fault} (h : f.isOperand = true) : f.isClean = true := by
  cases f <;> first | rfl | cases h

theorem popBounds_blames : popBounds.Blames := by
  refine .bind .get fun s => ?_
  split
  · exact .throwThen rfl _
  · refine .bind (.lift _) fun stop => .bind (.lift _) fun start => ?_
    dsimp only
    split
    · exact .throwThen rfl _
    · split
      · exact .throwThen rfl _
      · exact .bind (.lift _) fun _ => .pure _

theorem StackStep.blames {α : Type} {x : Effect α} (h : StackStep x) : x.Blames := by
  cases h with
  | push | pop | popBoolean | popInteger => exact .ofStack _
  | bounds => exact popBounds_blames
  | operator o => exact o.run_blames

/-- where the native words are, all that has to be said is which words may be unknown -/
theorem native_lawful {m₀ : Machine} {Q : Fault → Prop} {word : Dictionary → String → Prop}
    (hm : m₀.dictionary.Built natives) (hclean : ∀ f : Fault, f.isClean = true → Q f)
    (hunread : ∀ m w, Evolves m₀ m → word m.dictionary w → Token.literal w.toList = .malformed →
      Q (.malformedNumber w))
    (hunknown : ∀ m w, Evolves m₀ m → word m.dictionary w → Token.literal w.toList = .name →
      m.dictionary.contains w = false → Q (.notFound w)) :
    (Comparison.along m₀ Q word False).Lawful := by
  refine Comparison.along_lawful hclean (fun hx hr => hclean _ (Fault.isClean_of_isOperand (hx.blames _ _ _ hr)))
    hunread hunknown (fun m w d hev _ hd => ?_) False.elim
  rcases (hev.built hm).lookup_cases hd with hnative | ⟨b, hb, rfl⟩
  · exact .inr (.inl (isNative_of_mem_natives _ hnative))
  · exact .inr (.inr ⟨b, rfl, hb⟩)

/-! ## Words of a body -/

/-- from machines of the kind, the step raises clean faults only -/
abbrev Clean (P : Machine → Prop) (x : MachineM Unit) : Prop := Coincide P (·.isClean = true) x x

/-- well compiled, and with fewer calls allowed than a nesting -/
structure Machine.Prepared (n : Nat) (m : Machine) : Prop where
  compiled : m.WellCompiled
  room : m.maxCallDepth - m.callDepth < n

theorem Machine.Prepared.stable (n : Nat) : Stable (Machine.Prepared n) := by
  intro m m' hev hm
  refine ⟨hev.wellCompiled hm.compiled, ?_⟩
  rw [hev.maxCallDepth, hev.callDepth]
  exact hm.room

theorem Machine.Prepared.evolves {n : Nat} {m m' : Machine} (hm : m.Prepared n) (hev : Evolves m m') : m'.Prepared n :=
  .stable n m m' hev hm

/-- only dictionary and open bodies, and the calls that are left, decide whether a machine is prepared -/
theorem Machine.Prepared.of_eq {n : Nat} {m m' : Machine} (hm : m.Prepared n) (hd : m'.dictionary = m.dictionary)
    (hc : m'.compilation = m.compilation) (hmax : m'.maxCallDepth = m.maxCallDepth)
    (hdepth : m'.callDepth = m.callDepth) : m'.Prepared n := by
  obtain ⟨⟨hbuilt, hbodies, hframes⟩, hroom⟩ := hm
  rw [← hd] at hbuilt hbodies hframes
  rw [← hc] at hframes
  rw [← hmax, ← hdepth] at hroom
  exact ⟨⟨hbuilt, hbodies, hframes⟩, hroom⟩

theorem Machine.Prepared.onLine {n : Nat} {m : Machine} (hm : m.Prepared n) (text : List Char) :
    { m with input := text }.Prepared n :=
  hm.of_eq rfl rfl rfl rfl

/-- the calls that a word may make raise clean faults only -/
def CallsClean (n : Nat) (answer : Answer) : Prop :=
  ∀ name b, Clean (fun m => m.Prepared n ∧ m.dictionary.body? name = some b) (answer (.body b))

/-- a word that well-formed items may evaluate -/
def BodyWord (d : Dictionary) (word : String) : Prop :=
  (CompileWord.ofName? word = none ∨ word = stringWord) ∧ d.Knows [] word

theorem bodyWord_lawful {m₀ : Machine} (hm : m₀.dictionary.Built natives) :
    (Comparison.along m₀ (·.isClean = true) BodyWord False).Lawful := by
  refine native_lawful hm (fun _ => id) ?_ ?_
  · rintro m w - ⟨-, ⟨v, hv⟩ | ⟨hname, -⟩⟩ hl
    · cases hl.symm.trans hv
    · cases hl.symm.trans hname
  · rintro m w - ⟨-, ⟨v, hv⟩ | ⟨-, hin⟩⟩ hl habsent
    · cases hl.symm.trans hv
    · simp [habsent] at hin

/-- the names are bound by the running bodies -/
def Visible (scope : List String) (m : Machine) : Prop := ∀ w ∈ scope, (m.findLocal? w).isSome = true

section Words

variable {n : Nat} {answer : Answer} (hcalls : CallsClean n answer)

include hcalls

theorem evalWord_clean (word : String) :
    Clean (fun m => m.Prepared n ∧ BodyWord m.dictionary word) (evalWord answer word) := by
  intro m hm
  have hasks : (Comparison.along m (·.isClean = true) BodyWord False).Asks answer answer := by
    refine ⟨?_, ?_, fun h _ => h.elim⟩
    · rintro m' n' word' b ⟨rfl, hev⟩ - hb
      obtain ⟨-, hstep, hclean⟩ := hcalls word' b n' ⟨hm.1.evolves hev, hb⟩
      exact Comparison.relates_along_iff.2 ⟨rfl, hev.trans hstep, hclean⟩
    · -- no word of a body closes a loop
      rintro m' n' word' b ⟨rfl, -⟩ ⟨hplain, -⟩ - hloop
      cases hloop with
      | close _ _ closes _ =>
        subst closes
        exact absurd hplain (by decide)
  exact Comparison.relates_along_iff.1
    ((bodyWord_lawful hm.1.compiled.built).evalWord hasks hm.2 ⟨rfl, .refl m⟩)

theorem runItemWord_clean {scope : List String} {word : String} (hplain : CompileWord.ofName? word = none) :
    Clean (fun m => m.Prepared n ∧ m.dictionary.Knows scope word ∧ Visible scope m) (runItemWord answer word) := by
  rintro m ⟨hm, hknown, hscope⟩
  refine Comparison.relates_along_iff.1
    ((bodyWord_lawful hm.compiled.built).runItemWord ⟨rfl, .refl m⟩ fun hlocal => ?_)
  have hunbound : word ∉ scope := fun hw => by simpa [hlocal] using hscope word hw
  have hglobal : m.dictionary.Knows [] word := hknown.imp_right (And.imp_right fun h => .inr (h.resolve_left hunbound))
  have hword : Clean (· = m) (Machine.withInput [] (evalWord answer word)) :=
    (evalWord_clean hcalls word).withInput fun m' hm' => by
      subst hm'
      exact ⟨hm.onLine [], .inl hplain, hglobal⟩
  exact Comparison.relates_along_iff.2 (hword m rfl)

theorem runItemString_clean (text : String) : Clean (Machine.Prepared n) (runItemString answer text) :=
  (evalWord_clean hcalls stringWord).withInput fun _ hm =>
    ⟨hm.onLine _, .inr rfl, hm.compiled.built.knows [] (by decide) (by decide +kernel)⟩

end Words

/-! ## Bodies, whatever they call -/

/-- items that were checked against a dictionary may run here, inside bodies that bind these names -/
structure Machine.Supports (d : Dictionary) (n : Nat) (scope : List String) (m : Machine) : Prop where
  prepared : m.Prepared n
  grows : ∀ w, d.contains w = true → m.dictionary.contains w = true
  visible : Visible scope m

namespace Machine.Supports

variable {d : Dictionary} {n : Nat} {scope : List String} {m m' : Machine}

theorem stable (d : Dictionary) (n : Nat) (scope : List String) : Stable (Machine.Supports d n scope) := by
  intro m m' hev hm
  refine ⟨hm.prepared.evolves hev, fun w hw => hev.contains hm.prepared.compiled.built (hm.grows w hw), ?_⟩
  intro w hw
  rw [Machine.findLocal?, hev.scopes]
  exact hm.visible w hw

/-- inside a loop its variable is bound too -/
theorem loop (hm : m.Supports d n scope) (hev : Evolves m { m' with scopes := m.scopes }) {ident : String} {v : Value}
    {top : List (String × Value)} (hs : m'.scopes = Keyed.insert ident v top :: m.scopes) :
    m'.Supports d n (ident :: scope) := by
  have hm' := stable d n scope _ _ hev hm
  have hcompiled : m'.WellCompiled :=
    Change.wellCompiled (m := { m' with scopes := m.scopes }) (.locals m'.scopes m'.callDepth) hm'.prepared.compiled
  refine ⟨⟨hcompiled, hm'.prepared.room⟩, hm'.grows, fun w hw => ?_⟩
  rw [Machine.findLocal?, hs, List.findSome?_cons, Keyed.find?_insert]
  rcases List.mem_cons.1 hw with rfl | hw
  · simp
  · split
    · rfl
    · exact hm.visible w hw

/-- a call starts without names, one level further down -/
theorem call (hm : m.Prepared (n + 1)) (hdepth : m.callDepth < m.maxCallDepth)
    (scopes : List (List (String × Value))) :
    { m with callDepth := m.callDepth + 1, scopes }.Supports m.dictionary n [] := by
  refine ⟨⟨(Change.locals scopes (m.callDepth + 1)).wellCompiled hm.compiled, ?_⟩, fun _ => id, by simp [Visible]⟩
  have hroom := hm.room
  dsimp only
  omega

end Machine.Supports

/-- well-formed items raise clean faults only, wherever their names are bound and the nesting allows all calls that the
limit does -/
def ItemsClean (n : Nat) : Prop :=
  ∀ ⦃d : Dictionary⦄ ⦃scope : List String⦄ ⦃items : List Item⦄, WellFormed d scope items →
    Clean (Machine.Supports d n scope) (runItems (answerUpTo n) items)

/-- calls nest one deeper than the items that make them -/
theorem ItemsClean.calls {n : Nat} (h : ItemsClean n) : CallsClean (n + 1) (answerUpTo (n + 1)) := by
  rintro name b m ⟨hm, hb⟩
  obtain ⟨hkind, -, hlocals, -, hitems⟩ := hm.compiled.bodies name b hb
  have hcall : Clean (· = m) (inCall b (runItems (answerUpTo n) b.items)) :=
    (h hitems).inCall (fun _ => rfl) fun m' hm' hdepth => by
      subst hm'
      exact .call hm hdepth _
  rw [← runBody_word hkind] at hcall
  exact hcall m rfl

theorem inLoop_clean {d : Dictionary} {n : Nat} {scope : List String} {b : Body} {x : MachineM Unit}
    (h : Clean (Machine.Supports d n (b.ident :: scope)) x) : Clean (Machine.Supports d n scope) (inLoop b x) := by
  refine h.inLoop (fun m _ => ?_) (fun _ => rfl) fun m m' top v hm hev _ hs => hm.loop hev hs
  obtain ⟨-, hev, -⟩ := Coincide.ofEffect (P := fun _ => True) popBounds m trivial
  refine ⟨rfl, hev, fun f hf => ?_⟩
  unfold MachineM.ofEffect at hf
  split at hf
  · cases hf
  · rename_i hr
    cases hf
    exact Fault.isClean_of_isOperand (popBounds_blames _ _ _ hr)

/-- **Clean runs.** Whatever well-formed items call, they raise clean faults only. -/
theorem runItems_clean (n : Nat) : ItemsClean n := by
  induction n with
  | zero => exact fun _ _ _ _ m hm => absurd hm.prepared.room (by omega)
  | succ n ih =>
    intro d scope items h
    have hcalls := ih.calls
    have hitems : Runner.RelatedOn d.Knows (Runner.evaluating (answerUpTo (n + 1)))
        (Runner.evaluating (answerUpTo (n + 1)))
        fun scope x y => y = x ∧ Clean (Machine.Supports d (n + 1) scope) x := {
      nil := fun _ => ⟨rfl, .pure _⟩
      seq := fun hx hx' => by
        obtain ⟨rfl, hx⟩ := hx
        obtain ⟨rfl, hx'⟩ := hx'
        exact ⟨rfl, .bind (.stable _ _ _) hx fun _ => hx'⟩
      word := fun hplain hknown => ⟨rfl, (runItemWord_clean hcalls hplain).mono fun m hm =>
        ⟨hm.prepared, hknown.mono fun w hw => hw.imp_right (hm.grows w), hm.visible⟩⟩
      text := fun _ => ⟨rfl, (runItemString_clean hcalls _).mono fun m hm => hm.prepared⟩
      loop := fun _ h => ⟨rfl, inLoop_clean h.2⟩ }
    exact (hitems.runItems h).2

/-! ## Words of a line -/

/-- what a word of a line may fail with: besides clean faults, that it cannot be read as a number or is unknown -/
def Fault.IsFrom (f : Fault) (word : String) (m : Machine) : Prop :=
  f.isClean = true ∨ f = .malformedNumber word ∨ f = .notFound word ∧ m.dictionary.contains word = false

/-- what words of a line ask for is clean: calls, and loops that are closed -/
theorem line_asks {m₀ : Machine} {n : Nat} (hm : m₀.Prepared n) {Q : Fault → Prop}
    (hQ : ∀ f : Fault, f.isClean = true → Q f) {word : Dictionary → String → Prop} :
    (Comparison.along m₀ Q word False).Asks (answerUpTo (n + 1)) (answerUpTo (n + 1)) := by
  refine ⟨?_, ?_, fun h _ => h.elim⟩
  · rintro m m' name b ⟨rfl, hev⟩ - hb
    obtain ⟨hcompiled, hroom⟩ := hm.evolves hev
    obtain ⟨-, hstep, hclean⟩ := (runItems_clean n).calls name b m' ⟨⟨hcompiled, by omega⟩, hb⟩
    exact Comparison.relates_along_iff.2 ⟨rfl, hev.trans hstep, fun f hf => hQ f (hclean f hf)⟩
  · rintro m m' word b ⟨rfl, hev⟩ - hframes hloop
    have hm' := hm.evolves hev
    cases hloop with
    | close outermost named closes kind =>
      have hall := hm'.compiled.frames.allNamed (Machine.needsIdent_of_named hframes named)
      rw [hframes] at hall
      cases hall with
      | cons _ ident items fit bottom body _ =>
        subst kind
        have hclosed := hev.trans (.edit (.close _ (by rw [hframes]) rfl named))
        have hsupports : { m' with compilation := {} }.Supports m'.dictionary n [] :=
          ⟨hm.evolves hclosed, fun _ => id, by simp [Visible]⟩
        obtain ⟨-, hstep, hclean⟩ := inLoop_clean (b := ⟨.loop, ident, items, []⟩) (runItems_clean n body) _ hsupports
        rw [← runBody_loop rfl] at hstep hclean
        exact Comparison.relates_along_iff.2 ⟨rfl, hclosed.trans hstep, fun f hf => hQ f (hclean f hf)⟩

section Lines

variable {n : Nat} {m : Machine} (hm : m.Prepared n)

include hm

theorem evalWord_from {word : String} {f : Fault} (h : (evalWord (answerUpTo (n + 1)) word m).error? = some f) :
    f.IsFrom word m := by
  have hlawful : (Comparison.along m (Fault.IsFrom · word m) (fun _ w => w = word) False).Lawful := by
    refine native_lawful hm.compiled.built (fun _ => .inl) ?_ ?_
    · rintro m' w - rfl -
      exact .inr (.inl rfl)
    · rintro m' w hev rfl - habsent
      refine .inr (.inr ⟨rfl, ?_⟩)
      cases hcontains : m.dictionary.contains w with
      | false => rfl
      | true => rw [hev.contains hm.compiled.built hcontains] at habsent; cases habsent
  have hrun := hlawful.evalWord (line_asks hm fun _ => .inl) rfl ⟨rfl, .refl m⟩
  exact (Comparison.relates_along_iff.1 hrun).2.2 f h

/-- a line fails over one of its words, met by a machine that came from the present one -/
theorem evalWords_from {k : Nat} {f : Fault} (h : (evalWords (answerUpTo (n + 1)) k m).error? = some f) :
    ∃ word m', Evolves m m' ∧ f.IsFrom word m' := by
  have hclean (f : Fault) (hf : f.isClean = true) : ∃ word m', Evolves m m' ∧ f.IsFrom word m' :=
    ⟨"", m, .refl m, .inl hf⟩
  have hlawful : (Comparison.along m (fun f => ∃ word m', Evolves m m' ∧ f.IsFrom word m') (fun _ _ => True)
      False).Lawful :=
    native_lawful hm.compiled.built hclean (fun m' w hev _ _ => ⟨w, m', hev, .inr (.inl rfl)⟩)
      fun m' w hev _ _ habsent => ⟨w, m', hev, .inr (.inr ⟨rfl, habsent⟩)⟩
  have hrun := hlawful.evalWords (line_asks hm hclean) trivial (fun _ _ => trivial) k ⟨rfl, .refl m⟩
  exact (Comparison.relates_along_iff.1 hrun).2.2 f h

end Lines

/-! ## Reachable machines -/

theorem Fault.kind_of_isClean {f : Fault} (h : f.isClean = true) :
    f.kind ≠ .dictionary ∧ f ≠ .missingLiteral ∧ f ≠ .noBody := by
  cases f with
  | stack e => cases e <;> simp [Fault.kind]
  | _ => simp_all [Fault.isClean, Fault.kind]

theorem Fault.IsFrom.reachable {f : Fault} {word : String} {m : Machine} (h : f.IsFrom word m) :
    f ≠ .missingLiteral ∧ f ≠ .noBody := by
  rcases h with h | rfl | ⟨rfl, -⟩
  · exact (Fault.kind_of_isClean h).2
  · exact ⟨by simp, by simp⟩
  · exact ⟨by simp, by simp⟩

/-- a machine allows one level more than all calls that its limit does need -/
theorem Machine.WellCompiled.prepared {m : Machine} (hm : m.WellCompiled) : m.Prepared (m.allowance - 1) :=
  ⟨hm, by have := m.allowance_room; omega⟩

theorem Machine.allowance_sub_add (m : Machine) : m.allowance - 1 + 1 = m.allowance := by
  have := m.allowance_room
  omega

/-- an installed body raises clean faults only, run or called -/
theorem installed_clean {m : Machine} (hm : m.WellCompiled) {name : String} {b : Body}
    (hb : m.dictionary.body? name = some b) {f : Fault}
    (hf : (Machine.run b m).error? = some f ∨ (Machine.call b m).error? = some f) : f.isClean = true := by
  obtain ⟨hkind, -, -, -, hitems⟩ := hm.bodies name b hb
  have hcall : Clean (· = m) (inCall b (runItems (answerUpTo m.allowance) b.items)) :=
    (runItems_clean _ hitems).inCall (fun _ => rfl) fun m' hm' hdepth => by
      subst hm'
      exact .call ⟨hm, by have := m'.allowance_room; omega⟩ hdepth _
  rw [Machine.run, runBody_word hkind, Machine.call, or_self] at hf
  exact hcall.fault rfl hf

/-- a word fails over itself, or with a clean fault -/
theorem evalOne_from {m : Machine} (hm : m.WellCompiled) {word rest : String} {f : Fault}
    (hf : (Machine.evalOne word rest m).1.error? = some f) : f.IsFrom word m := by
  refine evalWord_from (m := { m with input := rest.toList }) (hm.prepared.onLine _) ?_
  rwa [evalOne_eq, withInput_eq, onLine, EStateM.Result.error?_mapState, ← m.allowance_sub_add] at hf

/-- a line fails over one of its words -/
theorem eval_from {m : Machine} (hm : m.WellCompiled) {line : String} {f : Fault}
    (hf : (Machine.eval line m).error? = some f) : ∃ word m', f.IsFrom word m' := by
  rw [Machine.eval, evalLine_onLine, onLine, EStateM.Result.error?_mapState, reported,
    EStateM.Result.error?_mapState, ← m.allowance_sub_add] at hf
  obtain ⟨word, m', -, hfrom⟩ := evalWords_from (m := { m with input := line.toList }) (hm.prepared.onLine _) hf
  exact ⟨word, m', hfrom⟩

/-- the nesting that a machine allows is never used up -/
theorem eval_ne_nesting {m : Machine} (h : Reachable m) (line : String) :
    (Machine.eval line m).error? ≠ some .nesting := by
  intro hf
  obtain ⟨word, m', hclean | hmalformed | ⟨hunknown, -⟩⟩ := eval_from h.wellCompiled hf
  · cases hclean
  · cases hmalformed
  · cases hunknown

/-- **Checked names never fail.** In every reachable machine, every installed body and every body under construction is
well formed. So installed bodies never meet an unknown name, nor does a loop when it is closed, and no line meets a text
that is missing from a body or a compiled word without one. -/
theorem compiled_bodies_sound {m : Machine} (h : Reachable m) :
    (∀ name b, m.dictionary.Installed name b → WellInstalled m.dictionary name b) ∧
    OpenBodies m.dictionary m.compilation.frames ∧
    (∀ name b f, m.dictionary.Installed name b →
      (Machine.run b m).error? = some f ∨ (Machine.call b m).error? = some f →
        f.kind ≠ .dictionary ∧ f ≠ .missingLiteral ∧ f ≠ .noBody) ∧
    (∀ rest f, (Machine.evalOne "NEXT" rest m).1.error? = some f → f.kind ≠ .dictionary) ∧
    (∀ word rest f, (Machine.evalOne word rest m).1.error? = some f → f ≠ .missingLiteral ∧ f ≠ .noBody) ∧
    ∀ line f, (Machine.eval line m).error? = some f → f ≠ .missingLiteral ∧ f ≠ .noBody := by
  have hm := h.wellCompiled
  refine ⟨fun name b hb => ?_, hm.frames, fun name b f hb hf => ?_, fun rest f hf => ?_, fun word rest f hf => ?_,
    fun line f hf => ?_⟩
  · exact hm.bodies name b ((hm.built.installed_iff name b).1 hb)
  · exact Fault.kind_of_isClean (installed_clean hm ((hm.built.installed_iff name b).1 hb) hf)
  · rcases evalOne_from hm hf with hclean | rfl | ⟨-, hmissing⟩
    · exact (Fault.kind_of_isClean hclean).1
    · simp [Fault.kind]
    · have hnext : m.dictionary.contains "NEXT" = true := (hm.built.contains_iff _).2 (.inl (by decide +kernel))
      rw [hnext] at hmissing
      cases hmissing
  · exact (evalOne_from hm hf).reachable
  · obtain ⟨_, _, hfrom⟩ := eval_from hm hf
    exact hfrom.reachable

/-- the body of `: SUM 5 FOR I I + NEXT ;` -/
def sumBody : Body := ⟨.word, "SUM", [.word "5", .block ⟨.loop, "I", [.word "I", .word "+"], []⟩], []⟩

/-- the line that defines `sumBody` -/
theorem defines_sum {d : Dictionary} (hd : d.Built natives) :
    Defines d ": SUM 5 FOR I I + NEXT ;".toList "SUM" sumBody.items := by
  have hfive : d.Knows ["SUM"] "5" :=
    .inl ⟨_, Token.literal_integer (n := 5) (by decide)⟩
  have hplus : d.Knows ["I", "SUM"] "+" := hd.knows _ (by decide) (by decide +kernel)
  have hvariable : d.Knows ["I", "SUM"] "I" := .inr ⟨Token.literal_eq_name_iff.2 (by decide), .inl (by decide)⟩
  have hread : Token.next "5 FOR I I + NEXT ;".toList = ("5".toList, "FOR I I + NEXT ;".toList) := by decide
  have hfor : Token.next "FOR I I + NEXT ;".toList = ("FOR".toList, "I I + NEXT ;".toList) := by decide
  have hname : Token.next "I I + NEXT ;".toList = ("I".toList, "I + NEXT ;".toList) := by decide
  have hbody : Token.next "I + NEXT ;".toList = ("I".toList, "+ NEXT ;".toList) := by decide
  have hadd : Token.next "+ NEXT ;".toList = ("+".toList, "NEXT ;".toList) := by decide
  have hnext : Token.next "NEXT ;".toList = ("NEXT".toList, ";".toList) := by decide
  have hitems : Captures d.Knows ["SUM"] "5 FOR I I + NEXT ;".toList sumBody.items ";".toList :=
    .word "5" hread (by decide) (by decide) hfive
      (.loop "I" hfor hname ⟨by decide, by decide, by decide⟩
        (.word "I" hbody (by decide) (by decide) hvariable
          (.word "+" hadd (by decide) (by decide) hplus (.done _ _)))
        hnext (.done _ _))
  exact ⟨⟨"SUM 5 FOR I I + NEXT ;".toList, _, _, [], by decide, by decide, hitems, by decide, by decide⟩,
    ⟨by decide, by decide, by decide⟩⟩

/-- a session in which a word with a loop is defined -/
theorem compiled_bodies_sound_loop :
    ∃ m, Reachable m ∧ m.dictionary.Installed "SUM" sumBody ∧ WellInstalled m.dictionary "SUM" sumBody ∧
      ∀ f, (Machine.call sumBody m).error? = some f → f.kind ≠ .dictionary ∧ f ≠ .missingLiteral ∧ f ≠ .noBody := by
  obtain ⟨m, hm, hidle, -⟩ := reachable_fresh
  obtain ⟨status, log, hres⟩ := eval_definition hm.built hidle (defines_sum hm.built)
  have hm' := hm.eval ": SUM 5 FOR I I + NEXT ;"
  rw [hres] at hm'
  have hinstalled : (m.dictionary.install sumBody).Installed "SUM" sumBody := by
    rw [(hm.built.install (by decide)).installed_iff, hm.built.body?_install (by decide)]
    rfl
  obtain ⟨hwell, -, hruns, -⟩ := compiled_bodies_sound hm'
  exact ⟨_, hm', hinstalled, hwell _ _ hinstalled, fun f hf => hruns _ _ f hinstalled (.inr hf)⟩

end ReversePolish
