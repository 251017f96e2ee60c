/-
Items of a running body, against the same items typed.

`typeItems` is what the items of a body do if they are typed one after the other: a loop is opened, named, filled and
closed. While a body is open, the items of a running body are captured in the same way, with two exceptions. Results:
- `runItems_flat`, `runItems_flat_named`: items without loops and without names that are bound are captured as if they
  were typed, and leave the data stack as it is;
- `bound_not_typed`, `loop_not_typed`: a name that is bound is pushed and a loop is run, neither is captured;
- `replayed_items` puts these together with what no replay does.
-/
import ReversePolish.Proofs.Compilation.Replay
import ReversePolish.Proofs.Machine.Execution

namespace ReversePolish

/-! ## Items as if they were typed -/

/-- a word as if it were typed in a line of its own -/
def typeWord (answer : Answer) (word : String) : MachineM Unit := Machine.withInput [] (evalWord answer word)

/-- a loop as if it were typed: it is opened, named, filled and closed -/
def Runner.typing (answer : Answer) : Runner MachineM where
  word := typeWord answer
  text := runItemString answer
  body b run := do
    typeWord answer "FOR"
    typeWord answer b.ident
    run
    typeWord answer "NEXT"

def typeBody (answer : Answer) : Body → MachineM Unit := (Runner.typing answer).runBody

/-- items as if they were typed one after the other -/
def typeItems (answer : Answer) : List Item → MachineM Unit := (Runner.typing answer).runItems

section Equations

variable (answer : Answer)

theorem typeBody_eq (b : Body) :
    typeBody answer b = (do
      typeWord answer "FOR"
      typeWord answer b.ident
      typeItems answer b.items
      typeWord answer "NEXT") :=
  Runner.runBody_eq _ b

theorem typeItems_nil : typeItems answer [] = pure () := Runner.runItems_nil _

theorem typeItems_text (text : String) (items : List Item) :
    typeItems answer (.word stringWord :: .word text :: items) =
      (do runItemString answer text; typeItems answer items) :=
  Runner.runItems_text _ text items

theorem typeItems_block (b : Body) (items : List Item) :
    typeItems answer (.block b :: items) = (do typeBody answer b; typeItems answer items) :=
  Runner.runItems_block _ b items

theorem typeItems_word {word : String} (h : word ≠ stringWord) (items : List Item) :
    typeItems answer (.word word :: items) = (do typeWord answer word; typeItems answer items) :=
  Runner.runItems_word _ h items

end Equations

theorem typeWord_leavesData (answer : Answer) {m : Machine} (hactive : m.isCompiling = true) {word : String}
    (hplain : CompileWord.ofName? word = none) : LeavesData m (typeWord answer word m) :=
  unbound_leavesData answer hactive hplain

/-! ## Items that are captured as if they were typed -/

/-- no loops, and no names that have a value -/
inductive Flat (locals : String → Option Value) : List Item → Prop
  | nil : Flat locals []
  | text (text : String) {items : List Item} (rest : Flat locals items) :
    Flat locals (.word stringWord :: .word text :: items)
  | word (word : String) {items : List Item} (plain : word ≠ stringWord) (free : locals word = none)
    (rest : Flat locals items) : Flat locals (.word word :: items)

/-- after a step that leaves the scopes as they are -/
theorem Flat.next {m m' : Machine} {items : List Item} (h : Flat m.findLocal? items) (hx : LeavesData m (.ok () m')) :
    Flat m'.findLocal? items := by
  have hscopes : m'.scopes = m.scopes := hx.scopes
  have hsame : m'.findLocal? = m.findLocal? := by
    funext word
    rw [Machine.findLocal?, Machine.findLocal?, hscopes]
  rwa [hsame]

/-- two steps that start alike and leave the data as they are -/
theorem LeavesData.bind {m : Machine} {x y : MachineM Unit} {f g : Unit → MachineM Unit} (hxy : x m = y m)
    (hy : LeavesData m (y m))
    (hfg : ∀ m', y m = .ok () m' → f () m' = g () m' ∧ LeavesData m' (f () m')) :
    (x >>= f) m = (y >>= g) m ∧ LeavesData m ((x >>= f) m) := by
  cases hr : y m with
  | ok a m' =>
    obtain ⟨heq, hleaves⟩ := hfg m' hr
    rw [hr] at hxy hy
    rw [bind_of_ok hxy, bind_of_ok hr]
    exact ⟨heq, hy.trans hleaves⟩
  | error e m' =>
    rw [hr] at hxy hy
    rw [bind_of_error hxy, bind_of_error hr]
    exact ⟨rfl, hy⟩

theorem runItems_flat (answer : Answer) {d : Dictionary} {scope : List String} {items : List Item}
    (h : WellFormed d scope items) (m : Machine) (hactive : m.isCompiling = true) (hflat : Flat m.findLocal? items) :
    runItems answer items m = typeItems answer items m ∧ LeavesData m (runItems answer items m) := by
  induction h generalizing m with
  | nil scope => exact ⟨rfl, .pure hactive⟩
  | text text unquoted rest ih =>
    cases hflat with
    | word _ plain _ _ => exact absurd rfl plain
    | text _ hrest =>
      have hleaves := runItemString_leavesData answer hactive unquoted
      rw [runItems_text, typeItems_text]
      refine LeavesData.bind rfl hleaves fun m' hr => ?_
      rw [hr] at hleaves
      exact ih m' hleaves.isCompiling (hrest.next hleaves)
  | @word scope word items plain known rest ih =>
    cases hflat with
    | text _ _ => cases plain
    | word _ _ free hrest =>
      have hleaves := typeWord_leavesData answer hactive plain
      rw [runItems_word _ (ne_stringWord plain), typeItems_word _ (ne_stringWord plain)]
      refine LeavesData.bind (runItemWord_global free) hleaves fun m' hr => ?_
      rw [hr] at hleaves
      exact ih m' hleaves.isCompiling (hrest.next hleaves)
  | loop ident fit inner rest _ _ => cases hflat

/-- a text of a body is added to an open body that has its name -/
theorem runItemString_named (answer : Answer) {m : Machine} {b : Body} {outer : List Body}
    (hframes : m.compilation = ⟨b :: outer⟩) (hnamed : b.ident ≠ "") {text : String} (unquoted : '"' ∉ text.toList) :
    ∃ status log, runItemString answer text m =
      .ok () (m.reading (b.pushAll [.word stringWord, .word text] :: outer) m.input status log) := by
  have htaken : Token.takeUntil '"' (text.toList ++ ['"']) = some (text.toList, []) :=
    Token.takeUntil_eq_some_iff.2 ⟨rfl, unquoted⟩
  obtain ⟨status, log, hres⟩ := withInput_captured answer m (text.toList ++ ['"']) (by decide : stringWord ≠ "")
    (.literal (m := { m with input := text.toList ++ ['"'] }) b outer hframes hnamed rfl text.toList [] htaken)
  refine ⟨status, log, hres.trans ?_⟩
  rw [String.ofList_toList]
  simp only [Body.push, Body.pushAll, List.append_assoc, List.cons_append, List.nil_append]

/-- if the open body has its name, it gains just these items -/
theorem runItems_flat_named {answer : Answer} {d : Dictionary} (hempty : d.contains "" = false) {scope : List String}
    {items : List Item} (h : WellFormed d scope items) (m : Machine) (hd : m.dictionary = d) (hscope : Visible scope m)
    (hflat : Flat m.findLocal? items) {b : Body} {outer : List Body} (hframes : m.compilation = ⟨b :: outer⟩)
    (hnamed : b.ident ≠ "") :
    ∃ status log, runItems answer items m = .ok () (m.reading (b.pushAll items :: outer) m.input status log) := by
  induction h generalizing m b with
  | nil scope =>
    refine ⟨m.status, m.log, ?_⟩
    rw [runItems_nil, Body.pushAll_nil, Machine.reading, ← hframes]
    rfl
  | @text scope text items unquoted rest ih =>
    cases hflat with
    | word _ plain _ _ => exact absurd rfl plain
    | text _ hrest =>
      obtain ⟨status, log, hfirst⟩ := runItemString_named answer hframes hnamed unquoted
      obtain ⟨status', log', hlast⟩ := ih
        (m.reading (b.pushAll [.word stringWord, .word text] :: outer) m.input status log) hd hscope hrest rfl hnamed
      refine ⟨status', log', ?_⟩
      rw [runItems_text, bind_of_ok hfirst, hlast]
      simp only [Machine.reading, Body.pushAll, List.append_assoc, List.cons_append, List.nil_append]
  | @word scope word items plain known rest ih =>
    cases hflat with
    | text _ _ => cases plain
    | word _ _ free hrest =>
      -- a name that is not bound is in the dictionary
      have hglobal (hw : word ∈ scope ∨ d.contains word = true) : d.contains word = true :=
        hw.resolve_left fun hmem => by simpa [free] using hscope word hmem
      have hword : word ≠ "" := by
        rintro rfl
        rcases known with ⟨v, hv⟩ | ⟨-, hw⟩
        · cases hv
        · exact absurd (hglobal hw) (by simp [hempty])
      have hknows : { m with input := [] }.Knows word :=
        known.imp_right (And.imp_right fun h => .inr (hd ▸ hglobal h))
      obtain ⟨status, log, hfirst⟩ := withInput_captured answer m [] hword (.word b outer hframes hnamed plain hknows)
      obtain ⟨status', log', hlast⟩ := ih (m.reading (b.push (.word word) :: outer) m.input status log)
        hd hscope hrest rfl hnamed
      refine ⟨status', log', ?_⟩
      rw [Body.push_pushAll] at hlast
      rw [runItems_word _ (ne_stringWord plain), bind_of_ok ((runItemWord_global free).trans hfirst)]
      exact hlast
  | loop ident fit inner rest _ _ => cases hflat

/-! ## Items that are not captured as if they were typed -/

/-- to push a value is not to capture a word -/
theorem push_ne (v : Value) {m : Machine} {r : EStateM.Result Fault Machine Unit} (h : LeavesData m r) :
    Machine.push v m ≠ r := by
  rintro rfl
  have hstack := h.stack
  have hrefusal := h.refusal
  unfold Machine.push MachineM.ofEffect Effect.ofStack at hstack hrefusal
  rcases Stack.push_cases v m.stack with ⟨-, hpush⟩ | ⟨l, -, hpush⟩
  · rw [hpush] at hstack
    have hitems : v :: m.stack.items = m.stack.items := congrArg Stack.items hstack
    exact List.cons_ne_self v m.stack.items hitems
  · rw [hpush] at hrefusal
    cases hrefusal _ rfl

section Typed

variable (answer : Answer) {m : Machine} {b : Body} {outer : List Body}

/-- a word that fails when it is typed into an open body -/
theorem typeWord_error {word : String} {f : Fault} (hword : word ≠ "") (hframes : m.compilation = ⟨b :: outer⟩)
    (h : Compiles m word b outer (.fail f)) : ∃ m', typeWord answer word m = .error f m' := by
  obtain ⟨log, hlog⟩ := evalWord_compiling answer (m := { m with input := [] }) hword
    (Machine.isCompiling_of_frames hframes)
  have hfail : compileWord answer word { m with input := [], log } = .error f { m with input := [], log } :=
    compileWord_eq (m := { m with input := [], log }) hframes (h.congr rfl rfl) answer
  rw [typeWord, withInput_eq, hlog, hfail]
  exact ⟨_, rfl⟩

/-- typed into a body that waits for its name, a loop is refused -/
theorem typeBody_waiting (hframes : m.compilation = ⟨b :: outer⟩) (hwaiting : b.ident = "") (loop : Body) :
    ∃ m', typeBody answer loop m = .error (.badName "FOR") m' := by
  have hunfit : (Token.isNumeric "FOR".toList || (CompileWord.ofName? "FOR").isSome) = true := by decide
  obtain ⟨m', hfor⟩ := typeWord_error answer (by decide : "FOR" ≠ "") hframes (.badName hwaiting hunfit)
  rw [typeBody_eq, bind_of_error hfor]
  exact ⟨m', rfl⟩

/-- items have been added to the innermost body, or a word among them was unknown -/
def Adds (m : Machine) (b : Body) (outer : List Body) (ok : List Item → Prop) (r : EStateM.Result Fault Machine Unit) :
    Prop :=
  (∃ added status log, ok added ∧ r = .ok () (m.reading (b.pushAll added :: outer) m.input status log)) ∨
    ∃ f m', r = .error f m' ∧ f.isClean = false

/-- after items that have been added -/
theorem Adds.after {x y : MachineM Unit} {first : List Item} {status : String} {log : List Event}
    (hx : x m = .ok () (m.reading (b.pushAll first :: outer) m.input status log))
    (hy : ∀ m : Machine, m.compilation = ⟨b.pushAll first :: outer⟩ →
      Adds m (b.pushAll first) outer (fun _ => True) (y m)) :
    Adds m b outer (fun _ => True) ((x >>= fun _ => y) m) := by
  rw [bind_of_ok hx]
  refine (hy _ rfl).imp_left ?_
  rintro ⟨added, status', log', -, hadded⟩
  refine ⟨first ++ added, status', log', trivial, hadded.trans ?_⟩
  simp only [Machine.reading, Body.pushAll, List.append_assoc]

/-- typed into a body that has its name, a loop is added to it, if its items are added to the loop -/
theorem typeBody_named (hframes : m.compilation = ⟨b :: outer⟩) (hnamed : b.ident ≠ "") {ident : String}
    (fit : IsName ident) {body : List Item}
    (hbody : ∀ m : Machine, m.compilation = ⟨⟨.loop, ident, [], []⟩ :: b :: outer⟩ →
      Adds m ⟨.loop, ident, [], []⟩ (b :: outer) (fun _ => True) (typeItems answer body m)) :
    Adds m b outer (fun added => ∃ loop, added = [.block loop]) (typeBody answer ⟨.loop, ident, body, []⟩ m) := by
  obtain ⟨st₁, log₁, hopen⟩ := withInput_captured answer m [] (by decide : "FOR" ≠ "")
    (.loop b outer hframes hnamed rfl)
  obtain ⟨st₂, log₂, hname⟩ := withInput_captured answer
    (m.reading (Body.empty .loop :: b :: outer) m.input st₁ log₁) [] fit.1
    (.name (Body.empty .loop) (b :: outer) rfl rfl fit)
  rw [typeBody_eq, bind_of_ok (x := typeWord answer "FOR") hopen, bind_of_ok (x := typeWord answer ident) hname]
  rcases hbody (m.reading (⟨.loop, ident, [], []⟩ :: b :: outer) m.input st₂ log₂) rfl with
    ⟨added, st₃, log₃, -, hadded⟩ | ⟨f, m', hf, hclean⟩
  · obtain ⟨st₄, log₄, hnext⟩ := withInput_captured answer
      (m.reading (Body.pushAll ⟨.loop, ident, [], []⟩ added :: b :: outer) m.input st₃ log₃) []
      (by decide : "NEXT" ≠ "") (.nest (Body.pushAll ⟨.loop, ident, [], []⟩ added) b outer rfl fit.1 rfl rfl)
    exact .inl ⟨_, st₄, log₄, ⟨_, rfl⟩, (bind_of_ok hadded).trans hnext⟩
  · exact .inr ⟨f, m', bind_of_error hf, hclean⟩

/-- typed into a body that has its name, items are added to it, or a word among them is unknown -/
theorem typeItems_named {d : Dictionary} {scope : List String} {items : List Item} (h : WellFormed d scope items)
    (m : Machine) {b : Body} {outer : List Body} (hframes : m.compilation = ⟨b :: outer⟩) (hnamed : b.ident ≠ "") :
    Adds m b outer (fun _ => True) (typeItems answer items m) := by
  induction h generalizing m b outer with
  | nil scope =>
    refine .inl ⟨[], m.status, m.log, trivial, ?_⟩
    rw [typeItems_nil, Body.pushAll_nil, Machine.reading, ← hframes]
    rfl
  | @text scope text items unquoted rest ih =>
    obtain ⟨status, log, hfirst⟩ := runItemString_named answer hframes hnamed unquoted
    rw [typeItems_text]
    exact Adds.after hfirst fun m' hm' => ih m' hm' hnamed
  | @word scope word items plain known rest ih =>
    rw [typeItems_word _ (ne_stringWord plain)]
    by_cases hempty : word = ""
    · subst hempty
      exact ih m hframes hnamed
    · obtain ⟨step, hstep⟩ := exists_compiles hempty m b outer
      cases hstep with
      | capture _ _ known =>
        obtain ⟨status, log, hfirst⟩ := withInput_captured answer m [] hempty
          (.word b outer hframes hnamed plain known)
        exact Adds.after (x := typeWord answer word) hfirst fun m' hm' => ih m' hm' hnamed
      | unread _ _ malformed =>
        obtain ⟨m', hf⟩ := typeWord_error answer hempty hframes (.unread hnamed plain malformed)
        exact .inr ⟨_, m', bind_of_error hf, rfl⟩
      | unknown _ _ unknown name absent =>
        obtain ⟨m', hf⟩ := typeWord_error answer hempty hframes (.unknown hnamed plain unknown name absent)
        exact .inr ⟨_, m', bind_of_error hf, rfl⟩
      | name waiting | badName waiting => exact absurd waiting hnamed
      | comment _ acts | literal _ acts | start _ acts | define _ acts | unmatchedEnd _ acts | nest _ _ _ _ acts
      | close _ _ acts | unmatchedNext _ acts =>
        subst acts
        cases plain
  | @loop scope ident body items fit inner rest ihInner ihRest =>
    rw [typeItems_block]
    rcases typeBody_named answer hframes hnamed fit fun m' hm' => ihInner m' hm' fit.1 with
      ⟨added, status, log, -, hfirst⟩ | ⟨f, m', hf, hclean⟩
    · exact Adds.after hfirst fun m' hm' => ihRest m' hm' hnamed
    · exact .inr ⟨f, m', bind_of_error hf, hclean⟩

end Typed

/-- words are no loop -/
theorem Gains.not_loop {c : Compilation} {b loop : Body} {outer : List Body} (hframes : c = ⟨b :: outer⟩) :
    ¬ Gains c ⟨b.pushAll [.block loop] :: outer⟩ := by
  rintro ⟨b', outer', ident, words, hb, -, hgained⟩
  obtain ⟨rfl, rfl⟩ : b = b' ∧ outer = outer' := by simpa [hframes] using hb
  obtain ⟨-, hitems⟩ : b.ident = ident ∧ [Item.block loop] = words.map Item.word := by
    simpa [Body.pushAll] using hgained
  cases words with
  | nil => cases hitems
  | cons w words => cases hitems

/-- a single word that is captured as if it were typed is not bound -/
theorem bound_not_typed (answer : Answer) {m : Machine} (hactive : m.isCompiling = true) {word : String}
    (hplain : CompileWord.ofName? word = none)
    (htyped : runItems answer [.word word] m = typeItems answer [.word word] m) :
    Flat m.findLocal? [.word word] := by
  refine .word word (ne_stringWord hplain) ?_ .nil
  cases hlocal : m.findLocal? word with
  | none => rfl
  | some v =>
    rw [runItems_word _ (ne_stringWord hplain), typeItems_word _ (ne_stringWord hplain), runItems_nil, typeItems_nil,
      bind_pure_unit, bind_pure_unit, runItemWord_local hlocal] at htyped
    exact absurd htyped (push_ne v (typeWord_leavesData answer hactive hplain))

/-! ## Inside a run -/

/-- no word is empty -/
theorem Machine.WellCompiled.contains_empty {m : Machine} (h : m.WellCompiled) : m.dictionary.contains "" = false := by
  have hnative : Dictionary.nativesOf natives "" = [] := by decide +kernel
  rw [← Bool.not_eq_true, h.built.contains_iff, hnative]
  rintro (hnil | hsome)
  · exact hnil rfl
  · obtain ⟨b, hb⟩ := Option.isSome_iff_exists.1 hsome
    exact (h.bodies "" b hb).fit.1 rfl

/-- every machine that comes up while words are evaluated is well compiled -/
theorem Reachable.wellCompiled_inside {m₀ m : Machine} (h₀ : Reachable m₀) (h : Relation.ReflTransGen Change m₀ m) :
    m.WellCompiled := by
  induction h with
  | refl => exact h₀.wellCompiled
  | tail _ hchange ih => exact hchange.wellCompiled ih

/-- to run a loop is not to capture it -/
theorem loop_not_typed {m : Machine} (hm : m.WellCompiled) (hactive : m.isCompiling = true) {scope : List String}
    {loop : Body} (h : WellFormed m.dictionary scope [.block loop]) (hscope : Visible scope m) (answer : Answer) :
    runItems answer [.block loop] m ≠ typeItems answer [.block loop] m := by
  intro heq
  obtain ⟨hsame, hkept⟩ := runItems_capturing (pure ()) answer h m hactive
  -- what the items do does not depend on the answers, so they fail as they would with enough nesting
  have hclean (f : Fault) (hf : (runItems answer [.block loop] m).error? = some f) : f.isClean = true := by
    refine (runItems_clean (m.maxCallDepth - m.callDepth + 1) h).fault
      ⟨⟨hm, Nat.lt_succ_self _⟩, fun _ => id, hscope⟩ ?_
    rwa [← (runItems_capturing (pure ()) _ h m hactive).1, hsame]
  obtain ⟨b, outer, hframes⟩ := Machine.frames_of_compiling hactive
  rw [heq] at hkept
  rw [typeItems_block, typeItems_nil] at heq hkept
  by_cases hwaiting : b.ident = ""
  · -- typed, the loop is refused as a name, and that no item ever is
    obtain ⟨m', hbad⟩ := typeBody_waiting answer hframes hwaiting loop
    rw [bind_of_error hbad] at hkept
    exact hkept.fault rfl
  · cases h with
    | @loop _ ident body _ fit inner rest =>
      rcases typeBody_named answer hframes hwaiting fit fun m' hm' => typeItems_named answer inner m' hm' fit.1 with
        ⟨added, status, log, ⟨loop, rfl⟩, hadded⟩ | ⟨f, m', hf, hunclean⟩
      · -- typed, it is added to the open body, which gains words only
        rw [bind_of_ok hadded] at hkept
        exact Gains.not_loop hframes (hkept.gains rfl)
      · -- typed, a word in it is unknown, which a word that runs never is
        rw [bind_of_error hf] at heq
        have hf' := hclean f (by rw [heq]; rfl)
        rw [hunclean] at hf'
        cases hf'

/-- **Replay into an open body.** Let items of a well-formed body run inside an evaluation from a reachable machine,
while a body is open. A name that the running bodies bind is pushed, a loop is run over its items, and every other item
is captured. So no word is executed: with anything in place of execution the items do the same, the dictionary, the
generator and tracing stay as they are, and the open body gains words and perhaps its name, but no loop. Items without a
loop and without a bound name are captured just as if they were typed: they leave the data stack as it is, and an open
body that has its name gains just these items. A single item does what it would do if it were typed exactly if it is
neither a loop nor a bound name. -/
theorem replayed_items {m₀ m : Machine} (h₀ : Reachable m₀) (h : Relation.ReflTransGen Change m₀ m)
    (hactive : m.isCompiling = true) {scope : List String} {items : List Item}
    (hitems : WellFormed m.dictionary scope items) (hscope : Visible scope m) (answer : Answer) :
    (∀ beyond, runItemsCapturing beyond items m = runItems answer items m) ∧ Kept m (runItems answer items m) ∧
      (Flat m.findLocal? items →
        runItems answer items m = typeItems answer items m ∧ (runItems answer items m).state.stack = m.stack ∧
        ∀ b outer, m.compilation = ⟨b :: outer⟩ → b.ident ≠ "" → ∃ status log,
          runItems answer items m = .ok () (m.reading (b.pushAll items :: outer) m.input status log)) ∧
      ∀ item, items = [item] → (runItems answer items m = typeItems answer items m ↔ Flat m.findLocal? items) := by
  refine ⟨fun beyond => (runItems_capturing beyond answer hitems m hactive).1,
    (runItems_capturing (pure ()) answer hitems m hactive).2, fun hflat => ?_, ?_⟩
  · obtain ⟨htyped, hleaves⟩ := runItems_flat answer hitems m hactive hflat
    refine ⟨htyped, hleaves.stack, fun b outer hframes hnamed => ?_⟩
    exact runItems_flat_named (h₀.wellCompiled_inside h).contains_empty hitems m rfl hscope hflat hframes hnamed
  · rintro item rfl
    refine ⟨fun htyped => ?_, fun hflat => (runItems_flat answer hitems m hactive hflat).1⟩
    cases hitems with
    | word word plain known rest => exact bound_not_typed answer hactive plain htyped
    | loop ident fit inner rest =>
      exact absurd htyped (loop_not_typed (h₀.wellCompiled_inside h) hactive (.loop ident fit inner rest) hscope answer)

/-! ## A loop that hides a word -/

/-- a loop whose variable hides DUP; it opens a definition and names it before the variable comes up -/
def hidingLoop : Body := ⟨.loop, "DUP", [.word "MK", .word "F", .word "DUP"], []⟩

theorem captures_hidingLoop {d : Dictionary} (hMK : d.contains "MK" = true) (hF : d.contains "F" = true) :
    Captures d.Knows ["DUP"] "MK F DUP NEXT".toList hidingLoop.items "NEXT".toList := by
  have hknows (word : String) (hname : Token.isNumeric word.toList = false)
      (h : word ∈ ["DUP"] ∨ d.contains word = true) : d.Knows ["DUP"] word :=
    .inr ⟨Token.literal_eq_name_iff.2 hname, h⟩
  have hread : Token.next "MK F DUP NEXT".toList = ("MK".toList, "F DUP NEXT".toList) := by decide
  have hread' : Token.next "F DUP NEXT".toList = ("F".toList, "DUP NEXT".toList) := by decide
  have hread'' : Token.next "DUP NEXT".toList = ("DUP".toList, "NEXT".toList) := by decide
  exact .word "MK" hread (by decide) (by decide) (hknows "MK" (by decide) (.inr hMK))
    (.word "F" hread' (by decide) (by decide) (hknows "F" (by decide) (.inr hF))
      (.word "DUP" hread'' (by decide) (by decide) (hknows "DUP" (by decide) (.inl (by simp))) (.done _ _)))

/-- a line reads the loop and its bounds -/
theorem leads_hidingLoop {answer : Answer} (hanswer : ∀ r, Evolving (answer r)) {m : Machine}
    (hm : m.dictionary.Built natives) (hidle : m.isCompiling = false) (hstack : m.stack = ⟨[], none⟩)
    (hfree : m.dictionary.body? "FOR" = none) (hMK : m.dictionary.contains "MK" = true)
    (hF : m.dictionary.contains "F" = true) :
    ∃ status log, Leads answer { m with input := "0 1 FOR DUP MK F DUP NEXT".toList } ((m.holding
      [.integer 1, .integer 0] "NEXT".toList status log).reading [hidingLoop] "NEXT".toList status log) := by
  have hread : Token.next "0 1 FOR DUP MK F DUP NEXT".toList = ("0".toList, "1 FOR DUP MK F DUP NEXT".toList) := by
    decide
  have hread' : Token.next "1 FOR DUP MK F DUP NEXT".toList = ("1".toList, "FOR DUP MK F DUP NEXT".toList) := by decide
  have hfor : Token.next "FOR DUP MK F DUP NEXT".toList = ("FOR".toList, "DUP MK F DUP NEXT".toList) := by decide
  have hname : Token.next "DUP MK F DUP NEXT".toList = ("DUP".toList, "MK F DUP NEXT".toList) := by decide
  obtain ⟨st₁, log₁, hzero⟩ := Leads.number hanswer (m := { m with input := "0 1 FOR DUP MK F DUP NEXT".toList }) hidle
    hread (Token.literal_integer (n := 0) (by decide)) hstack
  obtain ⟨st₂, log₂, hone⟩ := Leads.number hanswer
    (m := m.holding [.integer 0] "1 FOR DUP MK F DUP NEXT".toList st₁ log₁) hidle hread'
    (Token.literal_integer (n := 1) (by decide)) rfl
  obtain ⟨x, hlookup, haction⟩ := (hm.lookup_for hfree ⟨[.integer 1, .integer 0], none⟩).1 rfl
  obtain ⟨st₃, log₃, hloop⟩ := Leads.loop hanswer
    (m := m.holding [.integer 1, .integer 0] "FOR DUP MK F DUP NEXT".toList st₂ log₂) hidle hlookup haction
    (fun _ _ => id) hfor hname ⟨by decide, by decide, by decide⟩ (captures_hidingLoop hMK hF)
  exact ⟨st₃, log₃, hzero.trans (hone.trans hloop)⟩

/-- its first two items leave F open -/
theorem runItems_hidingLoop {m : Machine} (hm : m.dictionary.Built natives) (hidle : m.isCompiling = false)
    (hroom : m.callDepth < m.maxCallDepth) (hMK : m.dictionary.body? "MK" = some (.ofWords "MK" [":"])) (v : Value)
    (hscopes : m.scopes = [[("DUP", v)]]) (j : Nat) :
    ∃ status log, ∀ rest, runItems (answerUpTo (j + 1)) (.word "MK" :: .word "F" :: rest) m =
      runItems (answerUpTo (j + 1)) rest (m.reading [⟨.word, "F", [], []⟩] m.input status log) := by
  have hfree (name : String) (hname : name ≠ "DUP") : m.findLocal? name = none := by
    simp [Machine.findLocal?, hscopes, Keyed.find?, hname.symm]
  obtain ⟨st₁, log₁, hopen⟩ := runItemWord_opens hm hidle hroom ⟨by decide, by decide, by decide⟩ (by decide +kernel)
    (hfree "MK" (by decide)) hMK j
  obtain ⟨st₂, log₂, hname⟩ := withInput_captured (answerUpTo (j + 1))
    (m.reading [Body.empty .word] m.input st₁ log₁) [] (by decide : "F" ≠ "")
    (.name (Body.empty .word) [] rfl rfl ⟨by decide, by decide, by decide⟩)
  refine ⟨st₂, log₂, fun rest => ?_⟩
  rw [runItems_word _ (by decide), bind_of_ok hopen, runItems_word _ (by decide)]
  exact bind_of_ok ((runItemWord_global (by exact hfree "F" (by decide))).trans hname)

/-- the machine before the last item of the loop in its only pass -/
structure InsideHidingLoop (m inside : Machine) : Prop where
  changes : Relation.ReflTransGen Change m inside
  dictionary : inside.dictionary = m.dictionary
  stack : inside.stack = ⟨[], none⟩
  compilation : inside.compilation = ⟨[⟨.word, "F", [], []⟩]⟩
  scopes : inside.scopes = [[("DUP", .double 0.0)]]

/-- the loop makes one pass: it ends with F open, and with the count on the stack -/
theorem runBody_hidingLoop {m : Machine} (hm : m.dictionary.Built natives) (hidle : m.isCompiling = false)
    (hstack : m.stack = ⟨[.integer 1, .integer 0], none⟩) (hscopes : m.scopes = [])
    (hroom : m.callDepth < m.maxCallDepth) (hMK : m.dictionary.body? "MK" = some (.ofWords "MK" [":"])) (j : Nat) :
    ∃ inside, InsideHidingLoop m inside ∧ inside.input = m.input ∧ runBody (answerUpTo (j + 1)) hidingLoop m =
      .ok () { inside with stack := ⟨[.double 0.0], none⟩, scopes := [] } := by
  obtain ⟨status, log, hitems⟩ := runItems_hidingLoop
    (m := { m with stack := ⟨[], none⟩, scopes := [[("DUP", .double 0.0)]] }) hm hidle hroom hMK (.double 0.0) rfl j
  have hfirst := runItems_evolves (answerUpTo_evolves (j + 1)) [.word "MK", .word "F"]
    { m with stack := ⟨[], none⟩, scopes := [[("DUP", .double 0.0)]] }
  rw [hitems, runItems_nil] at hfirst
  have hchanges : Relation.ReflTransGen Change m { m with stack := ⟨[], none⟩, scopes := [[("DUP", .double 0.0)]] } :=
    (Relation.ReflTransGen.single (.stack ⟨[], none⟩)).tail (.locals [[("DUP", .double 0.0)]] m.callDepth)
  refine ⟨_, ⟨hchanges.trans hfirst.changes, rfl, rfl, rfl, rfl⟩, rfl, ?_⟩
  have hbounds : MachineM.ofEffect popBounds m = .ok (0.0, 1.0) { m with stack := ⟨[], none⟩ } := by
    unfold MachineM.ofEffect
    rw [hstack]
    rfl
  have hpass := (hitems [.word "DUP"]).trans (runItems_local (answerUpTo (j + 1)) [] (by decide) rfl rfl)
  have hpasses : passes "DUP" (runItems (answerUpTo (j + 1)) hidingLoop.items) 1.0 0.0
      { m with stack := ⟨[], none⟩, scopes := [[]] } = .ok () _ :=
    (passes_next (by decide +kernel) hpass (by decide +kernel)).trans (passes_end (by decide +kernel))
  rw [runBody_of_bounds rfl hbounds]
  simp only [hscopes]
  exact congrArg unscoped hpasses

/-- a line with the loop makes one pass: before its last item F is open, and that item pushes the count -/
theorem eval_hidingLoop {m : Machine} (hm : m.dictionary.Built natives) (hidle : m.isCompiling = false)
    (hstack : m.stack = ⟨[], none⟩) (hscopes : m.scopes = []) (hroom : m.callDepth < m.maxCallDepth)
    (hMK : m.dictionary.body? "MK" = some (.ofWords "MK" [":"])) (hF : m.dictionary.contains "F" = true)
    (hfree : m.dictionary.body? "FOR" = none) :
    ∃ inside m', InsideHidingLoop m inside ∧ Machine.eval "0 1 FOR DUP MK F DUP NEXT" m = .ok () m' ∧
      m'.stack = ⟨[.double 0.0], none⟩ ∧ m'.compilation = inside.compilation := by
  obtain ⟨j, hj⟩ := m.exists_allowance
  have hanswer := answerUpTo_evolves (j + 2)
  have hknown : m.dictionary.contains "MK" = true := (hm.contains_iff "MK").2 (.inr (congrArg Option.isSome hMK))
  obtain ⟨status, log, hline⟩ := leads_hidingLoop hanswer hm hidle hstack hfree hknown hF
  -- the end of the loop runs it
  obtain ⟨log', hclosed, hnext⟩ := evalWord_closes (answerUpTo (j + 2))
    (m := (m.holding [.integer 1, .integer 0] [] status log).reading [hidingLoop] [] status log)
    ⟨rfl, rfl, by decide, rfl⟩
  obtain ⟨inside, hinside, hinput, hrun⟩ := runBody_hidingLoop
    (m := (m.holding [.integer 1, .integer 0] [] status log).reading [] [] status log') hm rfl rfl hscopes hroom hMK j
  obtain ⟨status', log'', hsettle⟩ := Machine.settle_none
    { inside with stack := ⟨[.double 0.0], none⟩, scopes := [] } "NEXT"
  have hread : Token.next "NEXT".toList = ("NEXT".toList, []) := by decide
  have hend : Leads (answerUpTo (j + 2))
      ((m.holding [.integer 1, .integer 0] "NEXT".toList status log).reading [hidingLoop] "NEXT".toList status log)
      { inside with stack := ⟨[.double 0.0], none⟩, scopes := [], status := status', log := log'' } :=
    .word hanswer hread (by decide)
      ((hnext.trans (congrArg (settled "NEXT") hrun)).trans (congrArg (EStateM.Result.ok ()) hsettle))
  have hchanges := (((Relation.ReflTransGen.single (.input _)).trans hline.evolves.changes).tail (.input [])).trans
    (hclosed.changes.trans hinside.changes)
  have hblank : (Token.next inside.input).1 = [] := by
    rw [hinput]
    rfl
  have heval : Machine.eval "0 1 FOR DUP MK F DUP NEXT" m = .ok () { inside with
      stack := ⟨[.double 0.0], none⟩, scopes := [], input := m.input, status := status', log := log'' } := by
    rw [Machine.eval, hj, evalLine_eq hanswer, (hline.trans hend).rest, evalRest_end (by exact hblank)]
    rfl
  exact ⟨inside, _, ⟨hchanges, hinside.dictionary, hinside.stack, hinside.compilation, hinside.scopes⟩, heval, rfl, rfl⟩

/-- in a session, two lines define the words of the loop, and a third one has it run -/
theorem reachable_hidingLoop :
    ∃ m₀ m₁ m inside m', Reachable m₀ ∧ Machine.eval ": MK : ;" m₀ = .ok () m₁ ∧ Machine.eval ": F ;" m₁ = .ok () m ∧
      Reachable m ∧ InsideHidingLoop m inside ∧ Machine.eval "0 1 FOR DUP MK F DUP NEXT" m = .ok () m' ∧
      m'.stack = ⟨[.double 0.0], none⟩ ∧ m'.compilation = inside.compilation := by
  obtain ⟨dictionary, status, log, hstart, hholds⟩ := start_ok (s := {}) rfl
  have hm₀ : Reachable { Settings.apply {} Machine.core with dictionary, status, log } := .start hstart
  have hcolon : Sources natives ": MK : ;" (.ofWords "MK" [":"]) := .ofWords "MK : ;".toList ": ;".toList ": ;".toList
    (by decide) (by decide) ⟨by decide, by decide, by decide⟩ (fun _ _ _ => id) (by decide)
    (usable_natives (by decide +kernel))
  obtain ⟨st₁, log₁, hfirst, hm₁⟩ := hm₀.define rfl (hcolon.defines _ hm₀.built)
  obtain ⟨st₂, log₂, hsecond, hm₂⟩ := hm₁.define rfl (sources_empty.defines _ hm₁.built)
  have hMK := ((hm₁.built.body?_install (b := .ofWords "F" []) (by decide) "MK").trans (if_neg (by decide))).trans
    ((hm₀.built.body?_install (b := .ofWords "MK" [":"]) (by decide) "MK").trans (if_pos rfl))
  have hF := (hm₁.built.body?_install (b := .ofWords "F" []) (by decide) "F").trans (if_pos rfl)
  obtain ⟨inside, m', hinside, heval, hstack, hcompilation⟩ := eval_hidingLoop hm₂.built rfl rfl rfl
    (by decide : 0 < defaultCallDepth) hMK ((hm₂.built.contains_iff "F").2 (.inr (congrArg Option.isSome hF)))
    (hm₂.body?_eq_none rfl)
  exact ⟨_, _, _, inside, m', hm₀, hfirst, hsecond, hm₂, hinside, heval, hstack, hcompilation⟩

/-- before its last item the loop binds DUP only, so F would gain DROP and a text -/
theorem replayed_items_word_text :
    ∃ m₀ m₁ m inside, Reachable m₀ ∧ Machine.eval ": MK : ;" m₀ = .ok () m₁ ∧ Machine.eval ": F ;" m₁ = .ok () m ∧
      Reachable m ∧ InsideHidingLoop m inside ∧ inside.isCompiling = true ∧ ∃ status log,
      runItems (answerUpTo 1) [.word "DROP", .word stringWord, .word "a"] inside = .ok ()
        (inside.reading [⟨.word, "F", [.word "DROP", .word stringWord, .word "a"], []⟩] inside.input status log) := by
  obtain ⟨m₀, m₁, m, inside, -, hm₀, hfirst, hsecond, hm, hinside, -, -, -⟩ := reachable_hidingLoop
  have hbuilt : inside.dictionary.Built natives := hinside.dictionary ▸ hm.built
  have hactive := Machine.isCompiling_of_frames hinside.compilation
  have hitems : WellFormed inside.dictionary [] [.word "DROP", .word stringWord, .word "a"] :=
    .word "DROP" (by decide) (hbuilt.knows [] (by decide) (by decide +kernel)) (.text "a" (by decide) (.nil _))
  have hflat : Flat inside.findLocal? [.word "DROP", .word stringWord, .word "a"] :=
    .word "DROP" (by decide) (by rw [Machine.findLocal?, hinside.scopes]; rfl) (.text "a" .nil)
  obtain ⟨-, -, hcaptured, -⟩ := replayed_items hm hinside.changes hactive hitems (by simp [Visible]) (answerUpTo 1)
  exact ⟨m₀, m₁, m, inside, hm₀, hfirst, hsecond, hm, hinside, hactive,
    (hcaptured hflat).2.2 _ _ hinside.compilation (by decide)⟩

/-- its last item pushes the value of DUP, and F gains nothing -/
theorem bound_name_pushed :
    ∃ m₀ m₁ m inside m', Reachable m₀ ∧ Machine.eval ": MK : ;" m₀ = .ok () m₁ ∧ Machine.eval ": F ;" m₁ = .ok () m ∧
      Reachable m ∧ InsideHidingLoop m inside ∧ inside.isCompiling = true ∧
      WellFormed inside.dictionary ["DUP"] [.word "DUP"] ∧ Visible ["DUP"] inside ∧
      (runItems (answerUpTo 1) [.word "DUP"] inside).state.stack.items = .double 0.0 :: inside.stack.items ∧
      (runItems (answerUpTo 1) [.word "DUP"] inside).state.compilation = inside.compilation ∧
      Machine.eval "0 1 FOR DUP MK F DUP NEXT" m = .ok () m' ∧ m'.stack.items = [.double 0.0] ∧
      m'.compilation = ⟨[⟨.word, "F", [], []⟩]⟩ := by
  obtain ⟨m₀, m₁, m, inside, m', hm₀, hfirst, hsecond, hm, hinside, heval, hstack, hcompilation⟩ := reachable_hidingLoop
  have hbuilt : inside.dictionary.Built natives := hinside.dictionary ▸ hm.built
  have hlocal : inside.findLocal? "DUP" = some (.double 0.0) := by
    rw [Machine.findLocal?, hinside.scopes]
    rfl
  have hitems : WellFormed inside.dictionary ["DUP"] [.word "DUP"] :=
    .word "DUP" (by decide) (hbuilt.knows _ (by decide) (by decide +kernel)) (.nil _)
  have hvisible : Visible ["DUP"] inside := by
    intro w hw
    obtain rfl : w = "DUP" := by simpa using hw
    rw [hlocal]
    rfl
  have hrun := runItems_local (answerUpTo 1) [] (by decide) hlocal hinside.stack
  refine ⟨m₀, m₁, m, inside, m', hm₀, hfirst, hsecond, hm, hinside, Machine.isCompiling_of_frames hinside.compilation,
    hitems, hvisible, ?_, ?_, heval, congrArg Stack.items hstack, hcompilation.trans hinside.compilation⟩
  · rw [hrun, hinside.stack]
    rfl
  · rw [hrun]
    rfl

end ReversePolish
