/-
Evaluation terminates.

`Finishes` gives what a run ends with by rules, with no bound on nesting in sight: a word that asks for a body finishes
if the body does, a body if its items do, a loop if its passes do, and a line if its words do. A run without end has no
derivation. Results:
- `evalWord_asks`: a word asks for one body at most, for one that is installed or for the loop that it closes;
- `Finishes.sound`: rules and evaluator agree, for every nesting that is large enough;
- `runItems_finishes`: well-formed items finish, by induction on the calls that the limit still allows, on the items and
  on the rank of the counter;
- `evaluation_terminates`: every line finishes on every reachable machine.
-/
import Mathlib.Order.Filter.AtTopBot.Basic
import ReversePolish.Proofs.Compilation.Sound

namespace ReversePolish

/-! ## What a word asks for -/

variable {m : Machine} {word : String}

theorem runWord_asks (hm : m.dictionary.Built natives) (word : String) :
    (∃ r, ∀ answer, runWord answer word m = r) ∨
      ∃ b, m.dictionary.body? word = some b ∧ ∀ answer, runWord answer word m = answer (.body b) m := by
  cases hl : Token.literal word.toList with
  | number v => exact .inl ⟨_, fun _ => runWord_number hl⟩
  | malformed => exact .inl ⟨_, fun _ => runWord_malformed hl⟩
  | name =>
    cases hx : m.dictionary.lookup word m.stack with
    | none => exact .inl ⟨_, fun _ => runWord_unmatched hl hx⟩
    | some x =>
      rcases hm.lookup_cases hx with hnative | ⟨b, hb, rfl⟩
      · have hnative' := isNative_of_mem_natives _ hnative
        obtain ⟨r, hr⟩ : ∃ r, ∀ answer, x.run answer m = r := by
          obtain ⟨validator, action, context⟩ := x
          cases action with
          | compiled => simp [Definition.isNative] at hnative'
          | script steps => simp [Definition.isNative] at hnative'
          | _ => exact ⟨_, fun _ => rfl⟩
        exact .inl ⟨r, fun answer => (runWord_lookup hl hx).trans (hr answer)⟩
      · exact .inr ⟨b, hb, fun _ => runWord_lookup hl hx⟩

theorem compileWord_asks (hactive : m.isCompiling = true) (hword : word ≠ "") :
    (∃ r, ∀ answer, compileWord answer word m = r) ∨
      ∃ b, Closes m word b ∧ ∀ answer, compileWord answer word m = answer (.body b) { m with compilation := {} } := by
  obtain ⟨b, rest, hframes⟩ := Machine.frames_of_compiling hactive
  obtain ⟨step, hstep⟩ := exists_compiles hword m b rest
  have hrun := compileWord_eq hframes hstep
  cases hstep with
  | close outermost named closes kind =>
    subst outermost
    exact .inr ⟨b, ⟨closes, hframes, named, kind⟩, hrun⟩
  | _ => exact .inl ⟨_, hrun⟩

/-- a word asks for nothing, or for one body: that of a word that it calls, or the loop that it closes -/
theorem evalWord_asks (hm : m.dictionary.Built natives) (word : String) :
    (∃ r, ∀ answer, evalWord answer word m = r) ∨
      ∃ b log compilation, (m.dictionary.body? word = some b ∧ compilation = m.compilation ∨
          Closes m word b ∧ compilation = {}) ∧
        ∀ answer, evalWord answer word m = settled word (answer (.body b) { m with compilation, log }) := by
  by_cases hword : word = ""
  · subst hword
    exact .inl ⟨_, fun _ => rfl⟩
  · obtain ⟨log, hlog⟩ := m.traced_eq (.word word (String.ofList m.input))
    have heval (answer : Answer) : evalWord answer word m = settled word _ := evalWord_eq hword m
    simp only [hlog] at heval
    cases hactive : m.isCompiling with
    | true =>
      have hactive' : { m with log }.isCompiling = true := hactive
      simp only [hactive', if_true] at heval
      rcases compileWord_asks hactive' hword with ⟨r, hr⟩ | ⟨b, hb, hr⟩
      · exact .inl ⟨_, fun answer => (heval answer).trans (congrArg (settled word) (hr answer))⟩
      · exact .inr ⟨b, log, {}, .inr ⟨⟨hb.word, hb.frames, hb.named, hb.kind⟩, rfl⟩,
          fun answer => (heval answer).trans (congrArg (settled word) (hr answer))⟩
    | false =>
      have hidle : { m with log }.isCompiling = false := hactive
      simp only [hidle, Bool.false_eq_true, if_false] at heval
      rcases runWord_asks (m := { m with log }) hm word with ⟨r, hr⟩ | ⟨b, hb, hr⟩
      · exact .inl ⟨_, fun answer => (heval answer).trans (congrArg (settled word) (hr answer))⟩
      · exact .inr ⟨b, log, m.compilation, .inl ⟨hb, rfl⟩,
          fun answer => (heval answer).trans (congrArg (settled word) (hr answer))⟩

/-! ## Runs by rules -/

/-- what a machine has to do -/
inductive Task where
  | word (word : String)
  /-- a word of a body, or a text in one -/
  | item (word : String)
  | text (text : String)
  | items (items : List Item)
  | body (b : Body)
  /-- the passes of a loop from a count on -/
  | passes (ident : String) (items : List Item) (stop count : Float)
  /-- what is left of the line -/
  | rest
  | line (text : List Char)

/-- the text behind the word that opens it, and the items after it -/
def textTask? : List Item → Option (Task × List Item)
  | .word text :: rest => some (.text text, rest)
  | _ => none

/-- the first thing to do for items, and the items after it; a text that is missing leaves nothing to do -/
def firstTask? : List Item → Option (Task × List Item)
  | [] => none
  | .block b :: rest => some (.body b, rest)
  | .word word :: rest => if word = stringWord then textTask? rest else some (.item word, rest)

theorem firstTask?_text (text : String) (rest : List Item) :
    firstTask? (.word stringWord :: .word text :: rest) = some (.text text, rest) := by
  rw [firstTask?, if_pos rfl, textTask?]

/-- what a task on a machine ends with; only a word that asks for nothing ends by itself -/
inductive Finishes : Task → Machine → EStateM.Result Fault Machine Unit → Prop
  | plain {word : String} {m : Machine} {r : EStateM.Result Fault Machine Unit}
    (h : ∀ answer, evalWord answer word m = r) : Finishes (.word word) m r
  | asks {word : String} {m m₁ : Machine} {b : Body} {r : EStateM.Result Fault Machine Unit}
    (h : ∀ answer, evalWord answer word m = settled word (answer (.body b) m₁)) (body : Finishes (.body b) m₁ r) :
    Finishes (.word word) m (settled word r)
  | bound {word : String} {m : Machine} {v : Value} (h : m.findLocal? word = some v) :
    Finishes (.item word) m (Machine.push v m)
  | free {word : String} {m : Machine} {r : EStateM.Result Fault Machine Unit} (h : m.findLocal? word = none)
    (run : Finishes (.word word) { m with input := [] } r) : Finishes (.item word) m (onLine m.input r)
  | text {text : String} {m : Machine} {r : EStateM.Result Fault Machine Unit}
    (run : Finishes (.word stringWord) { m with input := text.toList ++ ['"'] } r) :
    Finishes (.text text) m (onLine m.input r)
  | nil {m : Machine} : Finishes (.items []) m (.ok () m)
  | missing {items : List Item} {m : Machine} (ne : items ≠ []) (h : firstTask? items = none) :
    Finishes (.items items) m (.error .missingLiteral m)
  | itemFails {items rest : List Item} {t : Task} {m m' : Machine} {f : Fault} (h : firstTask? items = some (t, rest))
    (first : Finishes t m (.error f m')) : Finishes (.items items) m (.error f m')
  | item {items rest : List Item} {t : Task} {m m' : Machine} {r : EStateM.Result Fault Machine Unit}
    (h : firstTask? items = some (t, rest)) (first : Finishes t m (.ok () m')) (others : Finishes (.items rest) m' r) :
    Finishes (.items items) m r
  | refused {b : Body} {m : Machine} (kind : b.kind = .word) (full : m.maxCallDepth ≤ m.callDepth) :
    Finishes (.body b) m (.error (.callDepth b.ident m.maxCallDepth) m)
  | call {b : Body} {m : Machine} {r : EStateM.Result Fault Machine Unit} (kind : b.kind = .word)
    (room : m.callDepth < m.maxCallDepth)
    (run : Finishes (.items b.items) { m with callDepth := m.callDepth + 1, scopes := [b.locals] } r) :
    Finishes (.body b) m (returned m.scopes r)
  | unbounded {b : Body} {m m' : Machine} {f : Fault} (kind : b.kind = .loop)
    (h : MachineM.ofEffect popBounds m = .error f m') : Finishes (.body b) m (.error f m')
  | loop {b : Body} {m m' : Machine} {start stop : Float} {r : EStateM.Result Fault Machine Unit}
    (kind : b.kind = .loop) (h : MachineM.ofEffect popBounds m = .ok (start, stop) m')
    (run : Finishes (.passes b.ident b.items stop start) { m' with scopes := b.locals :: m'.scopes } r) :
    Finishes (.body b) m (unscoped r)
  | atEnd {ident : String} {items : List Item} {stop count : Float} {m : Machine}
    (h : ¬ count < stop) : Finishes (.passes ident items stop count) m (.ok () m)
  | passFails {ident : String} {items : List Item} {stop count : Float} {m m' : Machine} {f : Fault}
    (h : count < stop)
    (pass : Finishes (.items items) (m.bindLocal ident (.double count)) (.error f m')) :
    Finishes (.passes ident items stop count) m (.error f m')
  | stuck {ident : String} {items : List Item} {stop count : Float} {m m' : Machine}
    (h : count < stop)
    (pass : Finishes (.items items) (m.bindLocal ident (.double count)) (.ok () m'))
    (still : ¬ count < count + 1.0) :
    Finishes (.passes ident items stop count) m (.error (.stuckCounter count) m')
  | pass {ident : String} {items : List Item} {stop count : Float} {m m' : Machine}
    {r : EStateM.Result Fault Machine Unit} (h : count < stop)
    (pass : Finishes (.items items) (m.bindLocal ident (.double count)) (.ok () m'))
    (moves : count < count + 1.0)
    (others : Finishes (.passes ident items stop (count + 1.0)) m' r) : Finishes (.passes ident items stop count) m r
  | noMore {m : Machine} (h : (Token.next m.input).1 = []) :
    Finishes .rest m (.ok () { m with input := (Token.next m.input).2 })
  | wordFails {m m' : Machine} {f : Fault} (h : (Token.next m.input).1 ≠ [])
    (first : Finishes (.word (String.ofList (Token.next m.input).1)) { m with input := (Token.next m.input).2 }
      (.error f m')) : Finishes .rest m (.error f m')
  | more {m m' : Machine} {r : EStateM.Result Fault Machine Unit} (h : (Token.next m.input).1 ≠ [])
    (first : Finishes (.word (String.ofList (Token.next m.input).1)) { m with input := (Token.next m.input).2 }
      (.ok () m')) (others : Finishes .rest m' r) : Finishes .rest m r
  | line {text : List Char} {m : Machine} {r : EStateM.Result Fault Machine Unit}
    (run : Finishes .rest { m with input := text } r) : Finishes (.line text) m (onLine m.input (reported r))

/-! ## Rules and evaluator -/

/-- what the evaluator does -/
def Task.exec (answer : Answer) : Task → MachineM Unit
  | .word w => evalWord answer w
  | .item w => runItemWord answer w
  | .text s => runItemString answer s
  | .items bs => runItems answer bs
  | .body b => runBody answer b
  | .passes ident bs stop count => ReversePolish.passes ident (runItems answer bs) stop count
  | .rest => evalRest answer
  | .line s => evalLine answer s

/-- items are run from the first on, unless they open a text that is missing -/
theorem firstTask?_cases (answer : Answer) {items : List Item} (hne : items ≠ []) :
    firstTask? items = none ∧ (∀ m, runItems answer items m = .error .missingLiteral m) ∨
      ∃ t rest, firstTask? items = some (t, rest) ∧
        runItems answer items = (do t.exec answer; runItems answer rest) := by
  cases items with
  | nil => exact absurd rfl hne
  | cons x others =>
    cases x with
    | block b => exact .inr ⟨.body b, others, rfl, (Runner.evaluating answer).runItems_block b others⟩
    | word word =>
      by_cases hword : word = stringWord
      · subst hword
        have hmissing (h : ∀ text rest, others ≠ .word text :: rest) := (Runner.evaluating answer).runItems_missing h
        have hfirst : firstTask? (.word stringWord :: others) = textTask? others := by rw [firstTask?, if_pos rfl]
        cases others with
        | nil => exact .inl ⟨hfirst, congrFun (hmissing (by simp))⟩
        | cons y rest =>
          cases y with
          | block b => exact .inl ⟨hfirst, congrFun (hmissing (by simp))⟩
          | word text => exact .inr ⟨.text text, rest, hfirst, (Runner.evaluating answer).runItems_text text rest⟩
      · exact .inr ⟨.item word, others, if_neg hword, (Runner.evaluating answer).runItems_word hword others⟩

theorem runItems_first {answer : Answer} {items rest : List Item} {t : Task} (h : firstTask? items = some (t, rest)) :
    runItems answer items = (do t.exec answer; runItems answer rest) := by
  have hne : items ≠ [] := by
    rintro rfl
    cases h
  rcases firstTask?_cases answer hne with ⟨hnone, -⟩ | ⟨t', rest', hsome, hrun⟩
  · cases hnone.symm.trans h
  · cases hsome.symm.trans h
    exact hrun

theorem runItems_of_firstTask?_none {answer : Answer} {items : List Item} (hne : items ≠ [])
    (h : firstTask? items = none) (m : Machine) : runItems answer items m = .error .missingLiteral m := by
  rcases firstTask?_cases answer hne with ⟨-, hrun⟩ | ⟨t, rest, hsome, -⟩
  · exact hrun m
  · cases hsome.symm.trans h

open Filter in
/-- what the rules give is what the evaluator gives, for every nesting that is large enough -/
theorem Finishes.sound {t : Task} {m : Machine} {r : EStateM.Result Fault Machine Unit} (h : Finishes t m r) :
    ∀ᶠ k in atTop, t.exec (answerUpTo k) m = r := by
  induction h with
  | plain h => exact .of_forall fun k => h (answerUpTo k)
  | @asks word m m₁ b r h _ ih =>
    -- an answer nests one deeper than the word that asks
    obtain ⟨n, hn⟩ := eventually_atTop.1 ih
    refine eventually_atTop.2 ⟨n + 1, fun k hk => ?_⟩
    obtain ⟨j, rfl⟩ : ∃ j, k = j + 1 := ⟨k - 1, by omega⟩
    exact (h (answerUpTo (j + 1))).trans (congrArg (settled word) (hn j (by omega)))
  | bound h => exact .of_forall fun k => runItemWord_local h
  | free h _ ih =>
    filter_upwards [ih] with k hk
    exact (runItemWord_global h).trans (congrArg _ hk)
  | text _ ih =>
    filter_upwards [ih] with k hk
    exact congrArg (onLine _) hk
  | nil => exact .of_forall fun k => congrFun (Runner.evaluating (answerUpTo k)).runItems_nil _
  | missing ne h => exact .of_forall fun k => runItems_of_firstTask?_none ne h _
  | itemFails h _ ih =>
    filter_upwards [ih] with k hk
    rw [Task.exec, runItems_first h]
    change EStateM.bind _ _ _ = _
    simp only [EStateM.bind, hk]
  | item h _ _ ihFirst ihOthers =>
    filter_upwards [ihFirst, ihOthers] with k hfirst hothers
    rw [Task.exec, runItems_first h]
    change EStateM.bind _ _ _ = _
    simp only [EStateM.bind, hfirst]
    exact hothers
  | refused kind full =>
    refine .of_forall fun k => ?_
    rw [Task.exec, runBody_word kind, inCall, if_pos full]
  | call kind room _ ih =>
    filter_upwards [ih] with k hk
    rw [Task.exec, runBody_word kind, inCall_eq room]
    exact congrArg _ hk
  | unbounded kind h =>
    refine .of_forall fun k => ?_
    rw [Task.exec, runBody_loop kind, inLoop_eq]
    change EStateM.bind _ _ _ = _
    simp only [EStateM.bind, h]
  | loop kind h _ ih =>
    filter_upwards [ih] with k hk
    exact (runBody_of_bounds kind h).trans (congrArg unscoped hk)
  | atEnd h => exact .of_forall fun k => passes_end h
  | passFails h _ ih =>
    filter_upwards [ih] with k hk
    exact passes_error h hk
  | stuck h _ still ih =>
    filter_upwards [ih] with k hk
    change passes _ _ _ _ _ = _
    rw [passes, dif_pos h, show runItems _ _ _ = _ from hk]
    exact dif_neg still
  | pass h _ moves _ ihPass ihOthers =>
    filter_upwards [ihPass, ihOthers] with k hpass hothers
    exact (passes_next h hpass moves).trans hothers
  | noMore h => exact .of_forall fun k => evalRest_end h
  | wordFails h _ ih =>
    filter_upwards [ih] with k hk
    rw [Task.exec, evalRest_word (answerUpTo_evolves k) h]
    change EStateM.bind _ _ _ = _
    rw [Task.exec] at hk
    simp only [EStateM.bind, hk]
  | more h _ _ ihFirst ihOthers =>
    filter_upwards [ihFirst, ihOthers] with k hfirst hothers
    rw [Task.exec, evalRest_word (answerUpTo_evolves k) h]
    change EStateM.bind _ _ _ = _
    rw [Task.exec] at hfirst
    simp only [EStateM.bind, hfirst]
    exact hothers
  | line _ ih =>
    filter_upwards [ih] with k hk
    rw [Task.exec, evalLine_eq (answerUpTo_evolves k)]
    exact congrArg (fun r => onLine _ (reported r)) hk

/-- a run ends in one way -/
theorem Finishes.unique {t : Task} {m : Machine} {r r' : EStateM.Result Fault Machine Unit} (h : Finishes t m r)
    (h' : Finishes t m r') : r = r' := by
  obtain ⟨k, hk, hk'⟩ := (h.sound.and h'.sound).exists
  exact hk.symm.trans hk'

/-! ## Bodies finish -/

theorem Machine.Prepared.bindLocal {n : Nat} {m : Machine} (h : m.Prepared n) (name : String) (v : Value) :
    (m.bindLocal name v).Prepared n := by
  unfold Machine.bindLocal
  split
  · exact h
  · exact h.of_eq rfl rfl rfl rfl

/-- well-formed items finish wherever the nesting is enough -/
def ItemsFinish (n : Nat) : Prop :=
  ∀ ⦃d : Dictionary⦄ ⦃scope : List String⦄ ⦃items : List Item⦄, WellFormed d scope items → ∀ m : Machine, m.Prepared n →
    Finishes (.items items) m (runItems (answerUpTo n) items m)

/-- a call that is not refused leaves fewer calls to its items -/
theorem ItemsFinish.call {n : Nat} (h : ItemsFinish n) {m : Machine} (hm : m.Prepared (n + 1)) {name : String}
    {b : Body} (hb : m.dictionary.body? name = some b) : Finishes (.body b) m (runBody (answerUpTo n) b m) := by
  obtain ⟨hkind, -, -, -, hitems⟩ := hm.compiled.bodies name b hb
  rw [runBody_word hkind]
  by_cases hfull : m.maxCallDepth ≤ m.callDepth
  · rw [inCall, if_pos hfull]
    exact .refused hkind hfull
  · have hcallee : Machine.Prepared n { m with callDepth := m.callDepth + 1, scopes := [b.locals] } := by
      have hroom := hm.room
      refine ⟨⟨hm.compiled.built, hm.compiled.bodies, hm.compiled.frames⟩, ?_⟩
      dsimp only
      omega
    rw [inCall_eq (by omega)]
    exact .call hkind (by omega) (h hitems _ hcallee)

/-- the word that closes a loop apart, a word asks for calls only -/
theorem ItemsFinish.evalWord {n : Nat} (h : ItemsFinish n) {m : Machine} (hm : m.Prepared (n + 1)) {word : String}
    (hword : word ≠ "NEXT") : Finishes (.word word) m (evalWord (answerUpTo (n + 1)) word m) := by
  rcases evalWord_asks hm.compiled.built word with ⟨r, hr⟩ | ⟨b, log, compilation, hsource, hr⟩
  · rw [hr]
    exact .plain hr
  · rw [hr]
    rcases hsource with ⟨hb, rfl⟩ | ⟨hcloses, -⟩
    · exact .asks hr (h.call (m := { m with log }) (hm.of_eq rfl rfl rfl rfl) hb)
    · exact absurd hcloses.word hword

/-- passes finish: with each one, the rank of the counter comes closer to that of the bound -/
theorem passes_finish {n : Nat} (ident : String) {items : List Item}
    (hitems : ∀ m : Machine, m.Prepared n → Finishes (.items items) m (runItems (answerUpTo n) items m))
    (stop count : Float) {m : Machine} (hm : m.Prepared n) :
    Finishes (.passes ident items stop count) m (passes ident (runItems (answerUpTo n) items) stop count m) := by
  fun_induction passes ident (runItems (answerUpTo n) items) stop count m with
  | case1 count m hc f m' hr =>
    have hpass := hitems _ (hm.bindLocal ident (.double count))
    rw [hr] at hpass
    exact .passFails hc hpass
  | case2 count m hc _ m' hr hn ih =>
    have hbound := hm.bindLocal ident (.double count)
    have hpass := hitems _ hbound
    have hev := runItems_evolves (answerUpTo_evolves n) items (m.bindLocal ident (.double count))
    rw [hr] at hpass hev
    exact .pass hc hpass hn (ih (hbound.evolves hev))
  | case3 count m hc _ m' hr hn =>
    have hpass := hitems _ (hm.bindLocal ident (.double count))
    rw [hr] at hpass
    exact .stuck hc hpass hn
  | case4 count m hc => exact .atEnd hc

theorem loop_finishes {n : Nat} {b : Body} (kind : b.kind = .loop)
    (hitems : ∀ m : Machine, m.Prepared n → Finishes (.items b.items) m (runItems (answerUpTo n) b.items m))
    {m : Machine} (hm : m.Prepared n) : Finishes (.body b) m (runBody (answerUpTo n) b m) := by
  rw [runBody_loop kind, inLoop_eq]
  change Finishes (.body b) m (EStateM.bind _ _ _)
  unfold EStateM.bind
  have hev := Evolving.ofEffect popBounds m
  cases hr : MachineM.ofEffect popBounds m with
  | error f m' => exact .unbounded kind hr
  | ok bounds m' =>
    rw [hr] at hev
    have hm' : Machine.Prepared n { m' with scopes := b.locals :: m'.scopes } := (hm.evolves hev).of_eq rfl rfl rfl rfl
    exact .loop kind hr (passes_finish b.ident hitems bounds.2 bounds.1 hm')

/-- items finish if the first thing to do does, and then the others -/
theorem Finishes.first {answer : Answer} {items rest : List Item} {t : Task} {m : Machine}
    (h : firstTask? items = some (t, rest)) (hev : Evolving (t.exec answer)) (hfirst : Finishes t m (t.exec answer m))
    (hothers : ∀ m', Evolves m m' → Finishes (.items rest) m' (runItems answer rest m')) :
    Finishes (.items items) m (runItems answer items m) := by
  rw [runItems_first h]
  change Finishes (.items items) m (EStateM.bind _ _ _)
  unfold EStateM.bind
  have hstate := hev m
  generalize t.exec answer m = r at hfirst hstate ⊢
  cases r with
  | error f m' => exact .itemFails h hfirst
  | ok _ m' => exact .item h hfirst (hothers m' hstate)

/-- **Bodies finish.** The induction is on the nesting, which covers the calls that are left, and in it on the items. -/
theorem runItems_finishes (n : Nat) : ItemsFinish n := by
  induction n with
  | zero => exact fun _ _ _ _ m hm => absurd hm.room (by omega)
  | succ n ihn =>
    intro d scope items h m hm
    have hanswer := answerUpTo_evolves (n + 1)
    induction h generalizing m with
    | nil scope =>
      rw [runItems_nil]
      exact .nil
    | text text unquoted rest ih =>
      refine .first (firstTask?_text text _) (runItemString_evolves hanswer text) ?_
        fun m' hev => ih m' (hm.evolves hev)
      change Finishes (.text text) m (Machine.withInput _ _ _)
      rw [withInput_eq]
      exact .text (ihn.evalWord (hm.onLine _) (by decide))
    | word word plain known rest ih =>
      have hnext : word ≠ "NEXT" := by
        rintro rfl
        cases plain
      refine .first (if_neg (ne_stringWord plain)) (runItemWord_evolves hanswer word) ?_ fun m' hev =>
        ih m' (hm.evolves hev)
      change Finishes (.item word) m (runItemWord _ _ _)
      cases hlocal : m.findLocal? word with
      | some v =>
        rw [runItemWord_local hlocal]
        exact .bound hlocal
      | none =>
        rw [runItemWord_global hlocal, withInput_eq]
        exact .free hlocal (ihn.evalWord (hm.onLine []) hnext)
    | loop ident fit inner rest ihInner ihRest =>
      exact .first rfl (runBody_evolves hanswer _) (loop_finishes rfl ihInner hm)
        fun m' hev => ihRest m' (hm.evolves hev)

/-! ## Lines finish -/

/-- the loop that a word closes -/
theorem closes_finishes {n : Nat} {m : Machine} (hm : m.Prepared n) {word : String} {b : Body} (h : Closes m word b)
    (log : List Event) :
    Finishes (.body b) { m with compilation := {}, log }
      (runBody (answerUpTo n) b { m with compilation := {}, log }) := by
  have hnamed := hm.compiled.frames.allNamed (Machine.needsIdent_of_named h.frames h.named)
  rw [h.frames] at hnamed
  have hkind := h.kind
  cases hnamed with
  | cons kind ident items fit bottom body outer =>
    have hafter : Machine.Prepared n { m with compilation := {}, log } := by
      have hempty := hm.compiled.withFrames (.named .nil)
      exact ⟨⟨hempty.built, hempty.bodies, hempty.frames⟩, hm.room⟩
    exact loop_finishes hkind (fun m' hm' => runItems_finishes n body m' hm') hafter

theorem evalWord_finishes {n : Nat} {m : Machine} (hm : m.Prepared n) (word : String) :
    Finishes (.word word) m (evalWord (answerUpTo (n + 1)) word m) := by
  rcases evalWord_asks hm.compiled.built word with ⟨r, hr⟩ | ⟨b, log, compilation, hsource, hr⟩
  · rw [hr]
    exact .plain hr
  · rw [hr]
    refine .asks hr ?_
    rcases hsource with ⟨hb, rfl⟩ | ⟨hcloses, rfl⟩
    · have hmore : Machine.Prepared (n + 1) { m with log } := by
        have hroom := hm.room
        exact ⟨⟨hm.compiled.built, hm.compiled.bodies, hm.compiled.frames⟩, by dsimp only; omega⟩
      exact (runItems_finishes n).call hmore hb
    · exact closes_finishes hm hcloses log

/-- words are read from the line until none is left; each leaves less of it -/
theorem evalRest_finishes {n : Nat} {m : Machine} (hm : m.Prepared n) :
    Finishes .rest m (evalRest (answerUpTo (n + 1)) m) := by
  have hanswer := answerUpTo_evolves (n + 1)
  induction hlen : m.input.length using Nat.strong_induction_on generalizing m with
  | h len ih =>
  by_cases hw : (Token.next m.input).1 = []
  · rw [evalRest_end hw]
    exact .noMore hw
  · have hread := hm.evolves (Evolves.read m (Token.next_suffix m.input))
    have hfirst := evalWord_finishes hread (String.ofList (Token.next m.input).1)
    have hev := evalWord_evolves hanswer (String.ofList (Token.next m.input).1)
      { m with input := (Token.next m.input).2 }
    rw [evalRest_word hanswer hw]
    change Finishes .rest m (EStateM.bind _ _ _)
    unfold EStateM.bind
    generalize evalWord (answerUpTo (n + 1)) (String.ofList (Token.next m.input).1)
      { m with input := (Token.next m.input).2 } = r at hfirst hev ⊢
    cases r with
    | error f m' => exact .wordFails hw hfirst
    | ok _ m' =>
      have hshort := Token.next_length m.input hw
      have hrest : m'.input.length ≤ (Token.next m.input).2.length := hev.input.length_le
      exact .more hw hfirst (ih m'.input.length (by omega) (hread.evolves hev) rfl)

/-- **Evaluation terminates.** On a reachable machine, whatever its limit on calls, the run of a line comes to an end,
in one way only: with what the evaluator gives, which is never that nesting was used up. -/
theorem evaluation_terminates {m : Machine} (hm : Reachable m) (line : String) :
    (∀ r, Finishes (.line line.toList) m r ↔ r = Machine.eval line m) ∧
      (Machine.eval line m).error? ≠ some .nesting := by
  have hfinishes : Finishes (.line line.toList) m (Machine.eval line m) := by
    obtain ⟨n, hn⟩ : ∃ n, m.allowance = n + 1 := ⟨m.allowance - 1, by have := m.allowance_room; omega⟩
    have hline : Machine.Prepared n { m with input := line.toList } := by
      have hroom := m.allowance_room
      have hwell := hm.wellCompiled
      exact ⟨⟨hwell.built, hwell.bodies, hwell.frames⟩, by dsimp only; omega⟩
    rw [Machine.eval, hn, evalLine_eq (answerUpTo_evolves _)]
    exact .line (evalRest_finishes hline)
  refine ⟨fun r => ⟨fun h => h.unique hfinishes, fun h => h ▸ hfinishes⟩, eval_ne_nesting hm line⟩

/-- a word that calls itself without end, but for the limit on calls -/
theorem evaluation_terminates_recursion :
    ∃ m, Reachable m ∧ m.dictionary.body? "R" = some (.ofWords "R" ["R"]) ∧
      Finishes (.line "R".toList) m (Machine.eval "R" m) := by
  obtain ⟨m, hm, hidle, -⟩ := reachable_fresh
  have hdefines : Defines m.dictionary ": R R ;".toList "R" [.word "R"] := by
    have hknown : m.dictionary.Knows ["R"] "R" := .inr ⟨Token.literal_eq_name_iff.2 (by decide), .inl (by decide)⟩
    have hread : Token.next "R ;".toList = ("R".toList, ";".toList) := by decide
    have hitems : Captures m.dictionary.Knows ["R"] "R ;".toList [.word "R"] ";".toList :=
      .word "R" hread (by decide) (by decide) hknown (.done _ _)
    exact ⟨⟨"R R ;".toList, _, _, [], by decide, by decide, hitems, by decide, by decide⟩,
      ⟨by decide, by decide, by decide⟩⟩
  obtain ⟨status, log, hres⟩ := eval_definition hm.built hidle hdefines
  have hm' := hm.eval ": R R ;"
  rw [hres] at hm'
  refine ⟨_, hm', ?_, ((evaluation_terminates hm' "R").1 _).2 rfl⟩
  rw [EStateM.Result.state_ok, hm.built.body?_install (by decide)]
  rfl

end ReversePolish
