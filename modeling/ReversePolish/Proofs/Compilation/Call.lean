/-
A called word does what its text does.

The items that a text stands for run in a call; the text itself is evaluated as a line. There a comment is skipped, a
text is pushed from the line, and a loop is captured and closed before it runs. Results:
- `captures_alike`: the items in a call agree with the text in a line, step by step;
- `call_agrees_with_line`: calling a word right after its definition agrees with evaluating its text in its place.
-/
import ReversePolish.Proofs.Compilation.Definition
import ReversePolish.Proofs.Machine.Balance
import ReversePolish.Proofs.Machine.Simulation

namespace ReversePolish

/-! ## Items in a call and text in a line -/

section Line

variable {hidden : String} {p : Place} {v d : Machine} {k n : Nat} {R : Machine → Machine → Prop}

/-- the called machine runs a step for a word that the direct one reads from its line -/
theorem agree_word {x y : MachineM Unit} {q : Place} {word : String} {after : List Char} {answer : Answer}
    (hanswer : ∀ r, Evolving (answer r)) (read : Token.next d.input = (word.toList, after)) (hword : word ≠ "")
    (hfirst : Agree (Alike q) (x v) (evalWord answer word { d with input := after }))
    (hrest : ∀ v d, Alike q v d → Agree R (y v) (evalRest answer d)) :
    Agree R ((do x; y : MachineM Unit) v) (evalRest answer d) := by
  rw [evalRest_word hanswer (by rw [read]; simpa using hword), read, String.ofList_toList]
  exact hfirst.bind fun _ v d h => hrest v d h

/-- the direct machine opens a loop on two numbers only -/
theorem Alike.lookup_for (hp : p.Fits hidden) (h : Alike p v d) :
    (d.stack.hasBounds = true → ∃ x, d.dictionary.lookup "FOR" d.stack = some x ∧ x.action = .core .loop) ∧
      (d.stack.hasBounds = false → d.dictionary.lookup "FOR" d.stack = none) := by
  have hfree : d.dictionary.body? "FOR" = none := by
    rw [h.known]
    cases hb : p.known.body? "FOR" with
    | none => rfl
    | some b => cases (hp.bodies _ b hb).1
  exact (h.known ▸ hp.known : d.dictionary.Built natives).lookup_for hfree d.stack

/-- a loop on other operands than two numbers fails in the call when its bounds are taken, and in the line when it is
opened -/
theorem agree_loop_refused (hp : p.Fits hidden) (h : Alike p v d) {answer : Answer} (hanswer : ∀ r, Evolving (answer r))
    {after : List Char} (read : Token.next d.input = ("FOR".toList, after)) (hbounds : d.stack.hasBounds = false)
    (b : Body) (x y : MachineM Unit) : Agree R ((do inLoop b x; y : MachineM Unit) v) (evalRest answer d) := by
  have hcalled : ∃ f, inLoop b x v = .error f v := by
    obtain ⟨f, hf⟩ := popBounds_refuses (h.stack ▸ hbounds : v.stack.hasBounds = false)
    refine ⟨f, ?_⟩
    change EStateM.bind (MachineM.ofEffect popBounds) _ v = _
    simp only [EStateM.bind, MachineM.ofEffect, hf]
  have hdirect : ∃ g d', evalRest answer d = .error g d' ∧ d'.stack = d.stack := by
    have hnone := (h.lookup_for hp).2 hbounds
    obtain ⟨log, hlog⟩ := evalWord_idle answer (by decide : "FOR" ≠ "") (m := { d with input := after }) h.isCompiling.2
    have hrun := @runWord_unmatched answer { d with input := after, log } "FOR"
      (Token.literal_eq_name_iff.2 (by decide)) hnone
    rw [hrun] at hlog
    obtain ⟨status, log', hsettle⟩ := Machine.settle_some { d with input := after, log } "FOR"
      (if d.dictionary.contains "FOR" then .noMatch "FOR" else .notFound "FOR")
    refine ⟨_, _, evalRest_error hanswer read (by decide) (by rw [String.ofList_toList, hlog, settled_error]), ?_⟩
    rw [hsettle]
  obtain ⟨f, hf⟩ := hcalled
  obtain ⟨g, d', hg, hstack⟩ := hdirect
  change Agree R (EStateM.bind _ _ v) _
  simp only [EStateM.bind, hf, hg]
  exact .error (h.stack.trans hstack.symm)

/-- a loop that the line opens is captured up to its end, and runs then -/
theorem agree_loop (hp : p.Fits hidden) (h : Alike p v d) (hdeeper : p.limit - p.deeper < k)
    (hdepth : p.limit - p.depth < n) {ok : List String → String → Prop}
    (hok : ∀ scope word, ok scope word → p.known.Knows scope word ∧ word ≠ ":" ∧ word ≠ hidden) {ident : String}
    {after start close after' : List Char} {body : List Item} (read : Token.next d.input = ("FOR".toList, after))
    (name : Token.next after = (ident.toList, start)) (fit : IsName ident)
    (inner : Captures ok [ident] start body close)
    (next : Token.next close = ("NEXT".toList, after')) {y : MachineM Unit}
    (hrest : ∀ v d, Alike { p with input := after' } v d → Agree R (y v) (evalRest (answerUpTo (n + 1)) d)) :
    Agree R ((do runBody (answerUpTo k) ⟨.loop, ident, body, []⟩; y : MachineM Unit) v)
      (evalRest (answerUpTo (n + 1)) d) := by
  have hanswer := answerUpTo_evolves (n + 1)
  rw [runBody_loop rfl]
  cases hbounds : d.stack.hasBounds with
  | false => exact agree_loop_refused hp h hanswer read hbounds _ _ _
  | true =>
    obtain ⟨x, hlookup, haction⟩ := (h.lookup_for hp).1 hbounds
    obtain ⟨st₃, log₃, hline⟩ := Leads.loop hanswer h.isCompiling.2 hlookup haction
      (fun scope word hw => h.known ▸ (hok scope word hw).1) read name fit inner
    rw [hline.rest]
    -- both machines then run the same items
    have hitems : ∀ top v d, Alike (Place.inLoop { p with input := after' } top) v d →
        Agree (Alike (Place.inLoop { p with input := after' } top)) (runItems (answerUpTo k) body v)
          (runItems (answerUpTo n) body d) := by
      intro top v d h
      have hp' : (Place.inLoop { p with input := after' } top).Fits hidden := { hp with }
      exact runItems_alike hidden k n (inner.formed fun _ w hw => (hok _ w hw).2) hp' hdeeper hdepth h
    obtain ⟨log₄, -, hnext⟩ := evalWord_closes (answerUpTo (n + 1))
      (m := d.reading [⟨.loop, ident, body, []⟩] after' st₃ log₃) ⟨rfl, rfl, fit.1, rfl⟩
    refine agree_word (q := { p with input := after' }) hanswer next (by decide) ?_ hrest
    change Agree _ _ (evalWord (answerUpTo (n + 1)) "NEXT" (d.reading [⟨.loop, ident, body, []⟩] after' st₃ log₃))
    rw [hnext]
    refine .settledRight "NEXT" ?_
    change Agree _ _ (runBody (answerUpTo n) ⟨.loop, ident, body, []⟩ _)
    rw [runBody_loop rfl]
    exact inLoop_alike hitems { h with idle := ⟨h.idle.1, rfl⟩, input := rfl }

/-- items that run in a call agree with the text that they stand for, up to where the text ends -/
theorem captures_alike {ok : List String → String → Prop} {scope : List String} {s rest : List Char} {items : List Item}
    (hcaptures : Captures ok scope s items rest) (hscope : scope = [])
    (hp : p.Fits hidden) (hscopes : p.scopes = []) (hdeeper : p.limit - p.deeper < k) (hdepth : p.limit - p.depth < n)
    (hok : ∀ scope word, ok scope word → p.known.Knows scope word ∧ word ≠ ":" ∧ word ≠ hidden) (h : Alike p v d)
    (hinput : p.input = s)
    (hrest : ∀ v d, Alike { p with input := rest } v d → Agree R (.ok () v) (evalRest (answerUpTo (n + 1)) d)) :
    Agree R (runItems (answerUpTo k) items v) (evalRest (answerUpTo (n + 1)) d) := by
  have hanswer := answerUpTo_evolves (n + 1)
  induction hcaptures generalizing p v d with
  | done scope s =>
    rw [runItems_nil]
    exact hrest v d { h with input := h.input.trans hinput }
  | @word scope s word after rest items read nonempty plain allowed tail ih =>
    obtain ⟨-, hcolon, hother⟩ := hok scope word allowed
    rw [runItems_word _ (ne_stringWord plain)]
    refine agree_word (q := { p with input := after }) hanswer (by rw [h.input, hinput]; exact read) nonempty ?_
      fun v d h => ih hscope (p := { p with input := after }) { hp with } hscopes hdeeper hdepth hok h rfl hrest
    -- nothing is bound outside the loops, so the item is evaluated as the word of the line is
    have hunbound : v.findLocal? word = none := by
      rw [← h.findLocal?_eq hp, Machine.findLocal?, h.scopes, hscopes]
      rfl
    rw [runItemWord_global hunbound]
    obtain ⟨j, rfl⟩ : ∃ j, k = j + 1 := ⟨k - 1, by omega⟩
    refine .withInputLeft (evalWord_alike (p := { p with input := after }) { hp with } plain hcolon hother ?_
      { h with input := rfl })
    exact (runItems_alike hidden j n).calls { hp with } hdeeper (Nat.lt_succ_of_lt hdepth)
  | @comment scope s after taken after' rest items read text tail ih =>
    obtain ⟨status, log, hskip⟩ := evalWord_comment (answerUpTo (n + 1)) (m := { d with input := after })
      (h.known ▸ hp.known) h.isCompiling.2 text
    have hread : Token.next d.input = ("(".toList, after) := by rw [h.input, hinput]; exact read
    have hline : Leads (answerUpTo (n + 1)) d { d with input := after', status, log } :=
      .word hanswer hread (by decide) (by rw [String.ofList_toList, hskip])
    rw [hline.rest]
    exact ih hscope (p := { p with input := after' }) { hp with } hscopes hdeeper hdepth hok { h with input := rfl } rfl
      hrest
  | @literal scope s after taken after' rest items read text tail ih =>
    rw [runItems_text]
    refine agree_word (q := { p with input := after' }) hanswer (by rw [h.input, hinput]; exact read) (by decide) ?_
      fun v d h => ih hscope (p := { p with input := after' }) { hp with } hscopes hdeeper hdepth hok h rfl hrest
    exact runItemString_alike_evalWord (p := { p with input := after }) (d := { d with input := after }) { hp with } _ _
      { h with input := rfl } text
  | @loop scope s ident after start close after' rest body items read name fit inner next tail _ ih =>
    subst hscope
    rw [runItems_block]
    exact agree_loop hp h hdeeper hdepth hok (by rw [h.input, hinput]; exact read) name fit inner next
      fun v d h => ih rfl (p := { p with input := after' }) { hp with } hscopes hdeeper hdepth hok h rfl hrest

end Line

/-! ## A word and its text -/

/-- both succeed with the same stack, generator and tracing, or both fail with the same stack -/
def SameOutcome : EStateM.Result Fault Machine Unit → EStateM.Result Fault Machine Unit → Prop
  | .ok _ v, .ok _ d => SameView v d
  | .error _ v, .error _ d => v.stack = d.stack
  | _, _ => False

theorem SameOutcome.of_ok {v : Machine} {r : EStateM.Result Fault Machine Unit} (h : SameOutcome (.ok () v) r) :
    ∃ d, r = .ok () d ∧ SameView v d := by
  cases r with
  | ok _ d => exact ⟨d, rfl, h⟩
  | error f d => exact h.elim

/-- entering and leaving the call cannot be seen -/
theorem Agree.inCallLeft {b : Body} {x : MachineM Unit} {v : Machine} {r : EStateM.Result Fault Machine Unit}
    (h : Agree SameView (x { v with callDepth := v.callDepth + 1, scopes := [b.locals] }) r) :
    Agree SameView (inCall b x v) r := by
  by_cases hfull : v.maxCallDepth ≤ v.callDepth
  · rw [inCall_refused hfull]
    exact .cut ⟨_, _, rfl⟩
  · rw [inCall_eq (Nat.lt_of_not_le hfull)]
    generalize x { v with callDepth := v.callDepth + 1, scopes := [b.locals] } = s at h ⊢
    cases h with
    | ok _ h => exact .ok () h
    | error h => exact .error h
    | cut h => exact .cut h

/-- the place where a word that was just defined runs beside its text -/
theorem fits_call {m : Machine} (hm : Reachable m) {name : String} (fit : IsName name) (items : List Item)
    (hbodies : ∀ other b, m.dictionary.Installed other b → ¬ Runs ":" b.items ∧ ¬ Runs name b.items)
    (line : List Char) :
    Place.Fits name
      ⟨m.dictionary.install ⟨.word, name, items, []⟩, m.dictionary, [], [[]], line, m.maxCallDepth, 1, 0⟩ := by
  refine ⟨hm.built.install fit.1, hm.built, fun other hother => ?_, fun other b hb => ?_, by simp, Nat.zero_le 1⟩
  · rw [hm.built.body?_install fit.1, if_neg (fun h => hother h.symm)]
  · obtain ⟨hkind, -, -, hfit, hitems⟩ := hm.wellCompiled.bodies other b hb
    obtain ⟨hcolon, hname⟩ := hbodies other b ((hm.built.installed_iff other b).2 hb)
    exact ⟨hfit.2.2, hkind, hitems.computes hcolon hname⟩

/-- **Calls and lines.** Between two calls of its host, let a session hold no body that opens a definition. A new name
is defined by a text that neither begins nor ends a definition and does not use the name, as no installed body does. If
the definition succeeds, then calling the name has the outcome that evaluating the text had, unless the call is refused
for its depth. -/
theorem call_agrees_with_line {m m₁ : Machine} (hm : Reachable m) (hidle : m.isCompiling = false) {name text : String}
    (hname : Token.IsWord name.toList) (hnew : m.dictionary.contains name = false)
    (hbodies : ∀ other b, m.dictionary.Installed other b → ¬ Runs ":" b.items ∧ ¬ Runs name b.items)
    (htext : ∀ w ∈ Token.words text.toList, w ≠ ":" ∧ w ≠ ";" ∧ w ≠ name)
    (hdefined : Machine.eval (": " ++ name ++ " " ++ text ++ " ;") m = .ok () m₁) :
    (∃ word limit m', Machine.eval name m₁ = .error (.callDepth word limit) m') ∨
      SameOutcome (Machine.eval name m₁) (Machine.eval text m) := by
  obtain ⟨j, hj⟩ : ∃ j, m.allowance = j + 1 := ⟨m.allowance - 1, by have := m.allowance_room; omega⟩
  have hanswer := answerUpTo_evolves (j + 1)
  obtain ⟨hscopes, hdepth⟩ := hm.balanced
  -- what the definition captured
  have hline : (": " ++ name ++ " " ++ text ++ " ;").toList = definitionLine name text.toList := by
    simp [definitionLine, String.toList_append]
  rw [Machine.eval, hline] at hdefined
  obtain ⟨fit, items, rest, status, log, hcaptures, hrest, rfl⟩ :=
    definition_ok (answerUpTo_evolves m.allowance) hm.built hidle hname htext hdefined
  -- the call
  have hnative : Dictionary.nativesOf natives name = [] := by
    have hnot := mt (hm.built.contains_iff name).2 (by simp [hnew])
    exact Classical.not_not.1 (not_or.1 hnot).1
  obtain ⟨log', hcall⟩ := eval_name
    (m := { m with dictionary := m.dictionary.install ⟨.word, name, items, []⟩, status, log })
    (b := ⟨.word, name, items, []⟩) (hm.built.install fit.1) hidle hname fit hnative
    (by rw [hm.built.body?_install fit.1, if_pos rfl]) rfl hj
  have hdirect : Machine.eval text m = evalLine (answerUpTo (j + 1)) text.toList m := by rw [Machine.eval, hj]
  rw [hdirect, evalLine_eq hanswer]
  -- the items of the call beside the text
  have hagree : Agree SameView
      (inCall ⟨.word, name, items, []⟩ (runItems (answerUpTo j) items)
        { m with dictionary := m.dictionary.install ⟨.word, name, items, []⟩, status, input := [], log := log' })
      (evalRest (answerUpTo (j + 1)) { m with input := text.toList }) := by
    have hroom := m.allowance_room
    refine .inCallLeft (captures_alike hcaptures rfl (fits_call hm fit items hbodies text.toList) rfl ?_ ?_
      (fun _ _ h => h) ?_ rfl fun v d h => ?_)
    · change m.maxCallDepth - 1 < j
      omega
    · change m.maxCallDepth - 0 < j
      omega
    · have hcompilation := Machine.compilation_eq_of_idle hidle
      exact ⟨rfl, rfl, rfl, rfl, rfl, ⟨hcompilation, hcompilation⟩, rfl, hscopes, rfl, ⟨rfl, rfl⟩, by simp [hdepth],
        hdepth⟩
    · rw [evalRest_end (by rw [h.input]; exact hrest)]
      exact .ok () ⟨h.stack, h.seed, h.tracing⟩
  generalize inCall ⟨.word, name, items, []⟩ (runItems (answerUpTo j) items) _ = r at hcall hagree
  generalize evalRest (answerUpTo (j + 1)) { m with input := text.toList } = r' at hagree ⊢
  generalize Machine.eval name _ = r'' at hcall ⊢
  cases hagree with
  | ok _ h =>
    cases hcall with
    | ok _ hsame => exact .inr ⟨hsame.1.symm.trans h.1, hsame.2.1.symm.trans h.2.1, hsame.2.2.symm.trans h.2.2⟩
  | error h =>
    cases hcall with
    | error hsame => exact .inr (hsame.2.symm.trans h)
    | cut h => exact h.elim
  | cut h =>
    obtain ⟨word, limit, rfl⟩ := h
    cases hcall with
    | error hsame =>
      obtain ⟨rfl, -⟩ := hsame
      exact .inl ⟨word, limit, _, rfl⟩
    | cut h => exact h.elim

/-- what plain words run is one of them -/
theorem Runs.mem_words {word : String} {words : List String} (h : Runs word (words.map Item.word)) : word ∈ words := by
  generalize hitems : words.map Item.word = items at h
  induction h generalizing words with
  | here hword =>
    obtain ⟨w, rest, rfl, hw, -⟩ := List.map_eq_cons_iff.1 hitems
    cases hw
    exact List.mem_cons_self
  | word w hword rest ih =>
    obtain ⟨w', rest', rfl, -, hrest⟩ := List.map_eq_cons_iff.1 hitems
    exact List.mem_cons_of_mem _ (ih hrest)
  | text text rest ih =>
    obtain ⟨w', rest', rfl, -, hrest⟩ := List.map_eq_cons_iff.1 hitems
    obtain ⟨w'', rest'', rfl, -, hrest⟩ := List.map_eq_cons_iff.1 hrest
    exact List.mem_cons_of_mem _ (List.mem_cons_of_mem _ (ih hrest))
  | inside b inner ih =>
    obtain ⟨w', rest', rfl, hw, -⟩ := List.map_eq_cons_iff.1 hitems
    cases hw
  | block b rest ih =>
    obtain ⟨w', rest', rfl, hw, -⟩ := List.map_eq_cons_iff.1 hitems
    cases hw

/-- a loop that pushes a text and the count -/
def countLoop : Body := ⟨.loop, "I", [.word stringWord, .word "x", .word "I"], []⟩

/-- the loop from 1 up to below 3 -/
def countItems : List Item := [.word "1", .word "3", .block countLoop]

/-- the line that counts so, with a comment in its loop -/
theorem defines_count {d : Dictionary} :
    Defines d (": " ++ "COUNT" ++ " " ++ "1 3 FOR I ( pass ) .\" x\" I NEXT" ++ " ;").toList "COUNT" countItems := by
  have hone : d.Knows ["COUNT"] "1" :=
    .inl ⟨_, Token.literal_integer (n := 1) (by decide)⟩
  have hthree : d.Knows ["COUNT"] "3" :=
    .inl ⟨_, Token.literal_integer (n := 3) (by decide)⟩
  have hvariable : d.Knows ["I", "COUNT"] "I" := .inr ⟨Token.literal_eq_name_iff.2 (by decide), .inl (by decide)⟩
  have hread : Token.next "1 3 FOR I ( pass ) .\" x\" I NEXT ;".toList =
      ("1".toList, "3 FOR I ( pass ) .\" x\" I NEXT ;".toList) := by decide
  have hread' : Token.next "3 FOR I ( pass ) .\" x\" I NEXT ;".toList =
      ("3".toList, "FOR I ( pass ) .\" x\" I NEXT ;".toList) := by decide
  have hfor : Token.next "FOR I ( pass ) .\" x\" I NEXT ;".toList =
      ("FOR".toList, "I ( pass ) .\" x\" I NEXT ;".toList) := by decide
  have hname : Token.next "I ( pass ) .\" x\" I NEXT ;".toList = ("I".toList, "( pass ) .\" x\" I NEXT ;".toList) := by
    decide
  have hparen : Token.next "( pass ) .\" x\" I NEXT ;".toList = ("(".toList, "pass ) .\" x\" I NEXT ;".toList) := by
    decide
  have hcomment : Token.takeUntil ')' "pass ) .\" x\" I NEXT ;".toList =
      some ("pass ".toList, " .\" x\" I NEXT ;".toList) := by
    decide
  have hquote : Token.next " .\" x\" I NEXT ;".toList = (stringWord.toList, "x\" I NEXT ;".toList) := by decide
  have htext : Token.takeUntil '"' "x\" I NEXT ;".toList = some ("x".toList, " I NEXT ;".toList) := by decide
  have hvar : Token.next " I NEXT ;".toList = ("I".toList, "NEXT ;".toList) := by decide
  have hnext : Token.next "NEXT ;".toList = ("NEXT".toList, ";".toList) := by decide
  have hbody : Captures d.Knows ["I", "COUNT"] "( pass ) .\" x\" I NEXT ;".toList
      [.word stringWord, .word "x", .word "I"] "NEXT ;".toList :=
    .comment hparen hcomment (.literal hquote htext (.word "I" hvar (by decide) (by decide) hvariable (.done _ _)))
  have hitems : Captures d.Knows ["COUNT"] "1 3 FOR I ( pass ) .\" x\" I NEXT ;".toList _ ";".toList :=
    .word "1" hread (by decide) (by decide) hone (.word "3" hread' (by decide) (by decide) hthree
      (.loop "I" hfor hname ⟨by decide, by decide, by decide⟩ hbody hnext (.done _ _)))
  exact ⟨⟨"COUNT 1 3 FOR I ( pass ) .\" x\" I NEXT ;".toList, _, _, [], by decide, by decide, hitems, by decide,
    by decide⟩,
    ⟨by decide, by decide, by decide⟩⟩

/-- a pass of that loop pushes the text and the count -/
theorem runItems_countLoop (answer : Answer) {m : Machine} (hm : m.dictionary.Built natives)
    (hidle : m.isCompiling = false) {xs : List Value} (hstack : m.stack = ⟨xs, none⟩) {scope : List (String × Value)}
    {outer : List (List (String × Value))} (hscopes : m.scopes = scope :: outer) (count : Float) :
    ∃ status log, runItems answer countLoop.items (m.bindLocal countLoop.ident (.double count)) =
      .ok () { m.holding (.double count :: .string "x" :: xs) m.input status log with
        scopes := Keyed.insert "I" (.double count) scope :: outer } := by
  have hbind : m.bindLocal "I" (.double count) =
      { m with scopes := Keyed.insert "I" (.double count) scope :: outer } := by
    rw [Machine.bindLocal, hscopes]
  have hlocal : { m with scopes := Keyed.insert "I" (.double count) scope :: outer }.findLocal? "I" =
      some (.double count) := by
    rw [Machine.findLocal?, List.findSome?_cons, Keyed.find?_insert, if_pos rfl]
  obtain ⟨status, log, htext⟩ := runItems_string answer [.word "I"]
    (m := { m with scopes := Keyed.insert "I" (.double count) scope :: outer }) hm hidle
    (by decide : '"' ∉ "x".toList) hstack
  refine ⟨status, log, ?_⟩
  rw [countLoop, hbind, htext, runItems_local answer [] (by decide) (by exact hlocal) rfl, runItems_nil]
  rfl

/-- in a call on an empty stack, the items make two passes -/
theorem runItems_countItems (answer : Answer) {m : Machine} (hm : m.dictionary.Built natives)
    (hidle : m.isCompiling = false) (hstack : m.stack = ⟨[], none⟩) :
    ∃ status log, runItems answer countItems { m with scopes := [[]] } =
      .ok () { m.holding [.double 2.0, .string "x", .double 1.0, .string "x"] m.input status log with
        scopes := [[]] } := by
  obtain ⟨st₁, log₁, hone⟩ := runItems_number answer [.word "3", .block countLoop] (m := { m with scopes := [[]] })
    hidle (Token.literal_integer (w := "1".toList) (n := 1) (by decide)) rfl hstack
  obtain ⟨st₂, log₂, hthree⟩ := runItems_number answer [.block countLoop]
    (m := { m.holding [.integer 1] m.input st₁ log₁ with scopes := [[]] })
    hidle (Token.literal_integer (w := "3".toList) (n := 3) (by decide)) rfl rfl
  obtain ⟨st₃, log₃, hfirst⟩ := runItems_countLoop answer
    (m := { m.holding [] m.input st₂ log₂ with scopes := [[], []] }) hm hidle rfl rfl 1.0
  obtain ⟨st₄, log₄, hsecond⟩ := runItems_countLoop answer
    (m := { m.holding [.double 1.0, .string "x"] m.input st₃ log₃ with scopes := [[("I", .double 1.0)], []] })
    hm hidle rfl rfl 2.0
  have hbounds : MachineM.ofEffect popBounds
      { m.holding [.integer 3, .integer 1] m.input st₂ log₂ with scopes := [[]] } =
        .ok (1.0, 3.0) { m.holding [] m.input st₂ log₂ with scopes := [[]] } := rfl
  have hpasses : passes "I" (runItems answer countLoop.items) 3.0 1.0
      { m.holding [] m.input st₂ log₂ with scopes := [[], []] } =
        .ok () { m.holding [.double 2.0, .string "x", .double 1.0, .string "x"] m.input st₄ log₄ with
          scopes := [[("I", .double 2.0)], []] } :=
    calc
      _ = passes "I" _ 3.0 (1.0 + 1.0) _ := passes_next (by decide +kernel) hfirst (by decide +kernel)
      _ = passes "I" _ 3.0 (2.0 + 1.0) _ := passes_next (by decide +kernel) hsecond (by decide +kernel)
      _ = _ := passes_end (by decide +kernel)
  have hloop : runBody answer countLoop { m.holding [.integer 3, .integer 1] m.input st₂ log₂ with scopes := [[]] } =
      .ok () { m.holding [.double 2.0, .string "x", .double 1.0, .string "x"] m.input st₄ log₄ with
        scopes := [[]] } :=
    (runBody_of_bounds rfl hbounds).trans (congrArg unscoped hpasses)
  refine ⟨st₄, log₄, ?_⟩
  rw [countItems, hone]
  refine hthree.trans ?_
  rw [runItems_block]
  exact bind_of_ok hloop

/-- called on an empty stack, the word pushes the text and the count twice -/
theorem eval_count {m : Machine} (hm : m.dictionary.Built natives) (hidle : m.isCompiling = false)
    (hstack : m.stack = ⟨[], none⟩) (hroom : m.callDepth < m.maxCallDepth)
    (hbody : m.dictionary.body? "COUNT" = some ⟨.word, "COUNT", countItems, []⟩) :
    ∃ v, Machine.eval "COUNT" m = .ok () v ∧
      v.stack.items = [.double 2.0, .string "x", .double 1.0, .string "x"] := by
  obtain ⟨j, hj⟩ := m.exists_allowance
  obtain ⟨log, hcall⟩ := eval_name hm hidle (by decide) ⟨by decide, by decide, by decide⟩ (by decide +kernel) hbody
    rfl hj
  obtain ⟨status, log', hitems⟩ := runItems_countItems (answerUpTo (j + 1))
    (m := { m with input := [], callDepth := m.callDepth + 1, log }) hm hidle hstack
  rw [(inCall_eq (m := { m with input := [], log }) hroom _).trans (congrArg (returned m.scopes) hitems)] at hcall
  generalize Machine.eval "COUNT" m = r at hcall ⊢
  cases hcall with
  | ok _ hsame => exact ⟨_, rfl, congrArg Stack.items hsame.1.symm⟩

/-- a fresh session in which a word with a loop, a comment and a text is defined: called and in a line, it pushes the
text and the count twice -/
theorem call_agrees_with_line_count :
    ∃ m m₁ v d, Reachable m ∧ m.isCompiling = false ∧ m.dictionary.contains "COUNT" = false ∧
      Machine.eval (": " ++ "COUNT" ++ " " ++ "1 3 FOR I ( pass ) .\" x\" I NEXT" ++ " ;") m = .ok () m₁ ∧
      Machine.eval "COUNT" m₁ = .ok () v ∧ Machine.eval "1 3 FOR I ( pass ) .\" x\" I NEXT" m = .ok () d ∧
      SameView v d ∧ v.stack.items = [.double 2.0, .string "x", .double 1.0, .string "x"] := by
  obtain ⟨dictionary, status, log, hstart, hholds⟩ := start_ok (s := {}) rfl
  have hm : Reachable _ := Hosted.start hstart
  have hbodies : ∀ other b, dictionary.Installed other b → ¬ Runs ":" b.items ∧ ¬ Runs "COUNT" b.items := by
    intro other b hb
    have hmem := (hholds.bodies other b ((hholds.built.installed_iff other b).1 hb)).1
    have hwords : ∀ b ∈ typesSourceWords.reverse ++ stackSourceWords.reverse,
        ∃ words : List String, b.items = words.map Item.word ∧ ":" ∉ words ∧ "COUNT" ∉ words := by
      intro b hb
      simp only [typesSourceWords, stackSourceWords, List.reverse_cons, List.reverse_nil, List.nil_append,
        List.cons_append, List.mem_cons, List.not_mem_nil, or_false] at hb
      rcases hb with rfl | rfl | rfl | rfl <;> exact ⟨_, rfl, by decide, by decide⟩
    obtain ⟨words, hitems, hcolon, hcount⟩ := hwords b hmem
    rw [hitems]
    exact ⟨fun h => hcolon h.mem_words, fun h => hcount h.mem_words⟩
  have hnew : dictionary.contains "COUNT" = false := by
    rw [← Bool.not_eq_true, hholds.built.contains_iff]
    rintro (hnative | hbody)
    · exact hnative rfl
    · obtain ⟨b, hb⟩ := Option.isSome_iff_exists.1 hbody
      obtain ⟨hmem, hident⟩ := hholds.bodies "COUNT" b hb
      have hidents : ∀ b ∈ typesSourceWords.reverse ++ stackSourceWords.reverse, b.ident ≠ "COUNT" := by decide
      exact hidents b hmem hident
  obtain ⟨status', log', hdefined⟩ := eval_definition hm.built rfl defines_count
  -- the call succeeds, so it is not refused, and the line ends as it does
  obtain ⟨v, hv, hstack⟩ := eval_count
    (m := { Settings.apply {} Machine.core with
      dictionary := dictionary.install ⟨.word, "COUNT", countItems, []⟩, status := status', log := log' })
    (hholds.built.install (by decide)) rfl rfl (by decide : 0 < defaultCallDepth)
    (by rw [hholds.built.body?_install (by decide), if_pos rfl])
  have hsame := (call_agrees_with_line hm rfl (by decide) hnew hbodies (by decide +kernel) hdefined).resolve_left (by
    rintro ⟨word, limit, m', hrefused⟩
    cases hv.symm.trans hrefused)
  rw [hv] at hsame
  obtain ⟨d, hd, hview⟩ := hsame.of_ok
  exact ⟨_, _, v, d, hm, rfl, hnew, hdefined, hv, hd, hview, hstack⟩

end ReversePolish
