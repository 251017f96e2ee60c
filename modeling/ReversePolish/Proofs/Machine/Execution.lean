/-
Words outside a compilation, one by one.

Numbers, texts, comments and calls are given by one equation each, as words of a line and as items of a running body, so
that a run is followed step by step. Results:
- `evalWord_number`, `evalWord_string`, `evalWord_comment`, `evalWord_call`: what single words do;
- `Dictionary.Built.lookup_for`: a loop is opened on two numbers only;
- `runItems_number`, `runItems_local`, `runItems_string`: the first of several items;
- `runItemWord_opens`: a called word that opens a definition leaves it open;
- `eval_name`: a line that consists of the name of an installed word calls it, and ends as the call does.
-/
import ReversePolish.Proofs.Session

namespace ReversePolish

/-! ## Words -/

/-- the machine further on in the line, with these items on its stack -/
def Machine.holding (m : Machine) (items : List Value) (input : List Char) (status : String) (log : List Event) :
    Machine :=
  { m with stack := ⟨items, none⟩, input, status, log }

theorem push_unbounded {m : Machine} {items : List Value} (v : Value) (hstack : m.stack = ⟨items, none⟩) :
    Machine.push v m = .ok () { m with stack := ⟨v :: items, none⟩ } := by
  unfold Machine.push MachineM.ofEffect
  rw [hstack]
  rfl

/-- outside a compilation, a number is pushed -/
theorem evalWord_number (answer : Answer) {m : Machine} (hidle : m.isCompiling = false) {word : String} {v : Value}
    (hnumber : Token.literal word.toList = .number v) {items : List Value} (hstack : m.stack = ⟨items, none⟩) :
    ∃ status log, evalWord answer word m = .ok () (m.holding (v :: items) m.input status log) := by
  have hword : word ≠ "" := by
    rintro rfl
    cases hnumber
  obtain ⟨log, hlog⟩ := evalWord_idle answer hword hidle
  rw [hlog, runWord_number hnumber, push_unbounded (m := { m with log }) v hstack]
  obtain ⟨status, log', hsettle⟩ := Machine.settle_none { m with stack := ⟨v :: items, none⟩, log } word
  exact ⟨status, log', congrArg (EStateM.Result.ok ()) hsettle⟩

/-- a number in a line -/
theorem Leads.number {answer : Answer} (hanswer : ∀ r, Evolving (answer r)) {m : Machine}
    (hidle : m.isCompiling = false) {word : String} {after : List Char}
    (read : Token.next m.input = (word.toList, after)) {v : Value}
    (hnumber : Token.literal word.toList = .number v) {items : List Value} (hstack : m.stack = ⟨items, none⟩) :
    ∃ status log, Leads answer m (m.holding (v :: items) after status log) := by
  have hword : word.toList ≠ [] := by
    intro hnil
    rw [hnil] at hnumber
    cases hnumber
  obtain ⟨status, log, hres⟩ := evalWord_number answer (m := { m with input := after }) hidle hnumber hstack
  refine ⟨status, log, Leads.word hanswer read hword ?_⟩
  rw [String.ofList_toList, hres]
  rfl

/-- outside a compilation, the word that opens a text pushes it -/
theorem evalWord_string (answer : Answer) {m : Machine} (hm : m.dictionary.Built natives)
    (hidle : m.isCompiling = false)
    {taken rest : List Char} (htext : Token.takeUntil '"' m.input = some (taken, rest)) :
    ∃ log, evalWord answer stringWord m =
      settled stringWord (Machine.push (.string (String.ofList taken)) { m with input := rest, log }) := by
  obtain ⟨log, hlog⟩ := evalWord_idle answer (by decide : stringWord ≠ "") hidle
  have hlookup : m.dictionary.lookup stringWord m.stack = some ⟨.depth 0, .core .string, .owner⟩ := by
    have hnative : Dictionary.nativesOf natives stringWord = [⟨.depth 0, .core .string, .owner⟩] := rfl
    rw [hm.lookup_eq, hnative]
    rfl
  refine ⟨log, ?_⟩
  rw [hlog, runWord_lookup (Token.literal_eq_name_iff.2 (by decide)) (by exact hlookup)]
  exact congrArg (settled stringWord) (takeUntil_bind (m := { m with log }) htext _ _)

/-- outside a compilation, a comment is skipped -/
theorem evalWord_comment (answer : Answer) {m : Machine} (hm : m.dictionary.Built natives)
    (hidle : m.isCompiling = false)
    {taken rest : List Char} (htext : Token.takeUntil ')' m.input = some (taken, rest)) :
    ∃ status log, evalWord answer "(" m = .ok () { m with input := rest, status, log } := by
  obtain ⟨log, hlog⟩ := evalWord_idle answer (by decide : "(" ≠ "") hidle
  have hlookup : m.dictionary.lookup "(" m.stack = some ⟨.depth 0, .core .comment, .owner⟩ := by
    have hnative : Dictionary.nativesOf natives "(" = [⟨.depth 0, .core .comment, .owner⟩] := rfl
    rw [hm.lookup_eq, hnative]
    rfl
  have hrun : runWord answer "(" { m with log } = .ok () { m with input := rest, log } := by
    rw [runWord_lookup (Token.literal_eq_name_iff.2 (by decide)) (by exact hlookup)]
    exact takeUntil_bind (m := { m with log }) htext _ _
  obtain ⟨status, log', hsettle⟩ := Machine.settle_none { m with input := rest, log } "("
  rw [hlog, hrun]
  exact ⟨status, log', congrArg (EStateM.Result.ok ()) hsettle⟩

/-- outside a compilation, the name of an installed word calls it -/
theorem evalWord_call {m : Machine} (hm : m.dictionary.Built natives) (hidle : m.isCompiling = false) {name : String}
    (fit : IsName name) (hnative : Dictionary.nativesOf natives name = []) {b : Body}
    (hb : m.dictionary.body? name = some b) (hkind : b.kind = .word) (j : Nat) :
    ∃ log, evalWord (answerUpTo (j + 1)) name m =
      settled name (inCall b (runItems (answerUpTo j) b.items) { m with log }) := by
  have hlookup : m.dictionary.lookup name m.stack = some (.ofBody b) := by
    rw [hm.lookup_eq, hnative, hb]
    rfl
  obtain ⟨log, hlog⟩ := evalWord_idle (answerUpTo (j + 1)) fit.1 hidle
  refine ⟨log, ?_⟩
  rw [hlog, runWord_lookup (Token.literal_eq_name_iff.2 fit.2.1) (by exact hlookup), ← runBody_word hkind]
  rfl

/-! ## The bounds of a loop -/

/-- are there two numbers on top? -/
def Stack.hasBounds (s : Stack) : Bool :=
  match s.items with
  | stop :: start :: _ => stop.isNumber && start.isNumber
  | _ => false

theorem popBounds_refuses {s : Stack} (h : s.hasBounds = false) : ∃ f, popBounds s = .error f s := by
  obtain ⟨items, limit⟩ := s
  match items with
  | [] => exact ⟨_, rfl⟩
  | [_] => exact ⟨_, rfl⟩
  | stop :: start :: rest =>
    have hnumbers : (!(stop.isNumber && start.isNumber)) = true := by
      rw [show (stop.isNumber && start.isNumber) = false from h]
      rfl
    refine ⟨.noMatch "FOR", ?_⟩
    change (if !(stop.isNumber && start.isNumber) then throw (.noMatch "FOR") else _ : Effect _) _ = _
    rw [if_pos hnumbers]
    rfl

theorem Value.isNumber_iff (v : Value) : v.isNumber = true ↔ v.kind = .integer ∨ v.kind = .double := by
  cases v <;> simp [Value.isNumber, Value.number?, Value.kind]

theorem Stack.hasBounds_iff (s : Stack) :
    s.hasBounds = true ↔
      ∃ k k', (k = .integer ∨ k = .double) ∧ (k' = .integer ∨ k' = .double) ∧
        (Validator.ofKinds [k, k']).accepts s = true := by
  obtain ⟨items, limit⟩ := s
  match items with
  | [] => simp [Stack.hasBounds, Validator.accepts, Validator.ofKinds, Validator.fits]
  | [_] => simp [Stack.hasBounds, Validator.accepts, Validator.ofKinds, Validator.fits]
  | stop :: start :: rest =>
    have haccepts (k k' : Kind) : (Validator.ofKinds [k, k']).accepts ⟨stop :: start :: rest, limit⟩ = true ↔
        k = stop.kind ∧ k' = start.kind := by
      simp [Validator.accepts, Validator.ofKinds, Validator.fits, Slot.accepts]
    simp only [Stack.hasBounds, Bool.and_eq_true, Value.isNumber_iff, haccepts]
    constructor
    · rintro ⟨hstop, hstart⟩
      exact ⟨_, _, hstop, hstart, rfl, rfl⟩
    · rintro ⟨k, k', hstop, hstart, rfl, rfl⟩
      exact ⟨hstop, hstart⟩

/-- a loop is opened on two numbers only -/
theorem Dictionary.Built.lookup_for {d : Dictionary} (h : d.Built natives) (hfree : d.body? "FOR" = none) (s : Stack) :
    (s.hasBounds = true → ∃ x, d.lookup "FOR" s = some x ∧ x.action = .core .loop) ∧
      (s.hasBounds = false → d.lookup "FOR" s = none) := by
  have hnative : Dictionary.nativesOf natives "FOR" =
      [⟨.ofKinds [.integer, .integer], .core .loop, .owner⟩, ⟨.ofKinds [.integer, .double], .core .loop, .owner⟩,
        ⟨.ofKinds [.double, .integer], .core .loop, .owner⟩, ⟨.ofKinds [.double, .double], .core .loop, .owner⟩] := rfl
  rw [h.lookup_bodiless hfree]
  constructor
  · intro hbounds
    obtain ⟨k, k', hk, hk', haccepts⟩ := (Stack.hasBounds_iff s).1 hbounds
    have hmem : ⟨.ofKinds [k, k'], .core .loop, .owner⟩ ∈ Dictionary.nativesOf natives "FOR" := by
      rw [hnative]
      rcases hk with rfl | rfl <;> rcases hk' with rfl | rfl <;> simp
    cases hfind : (Dictionary.nativesOf natives "FOR").find? (·.validator.accepts s) with
    | none => exact absurd haccepts (List.find?_eq_none.1 hfind _ hmem)
    | some x =>
      refine ⟨x, rfl, ?_⟩
      have hx := List.mem_of_find?_eq_some hfind
      rw [hnative] at hx
      simp only [List.mem_cons, List.not_mem_nil, or_false] at hx
      rcases hx with rfl | rfl | rfl | rfl <;> rfl
  · intro hbounds
    rw [List.find?_eq_none]
    intro x hx haccepts
    rw [← Bool.not_eq_true, Stack.hasBounds_iff] at hbounds
    rw [hnative] at hx
    simp only [List.mem_cons, List.not_mem_nil, or_false] at hx
    rcases hx with rfl | rfl | rfl | rfl <;> exact hbounds ⟨_, _, by simp, by simp, haccepts⟩

/-! ## Items of a running body -/

section Items

variable (answer : Answer) {m : Machine} {xs : List Value} (items : List Item)

theorem runItems_number (hidle : m.isCompiling = false) {word : String} {v : Value}
    (hnumber : Token.literal word.toList = .number v) (hfree : m.findLocal? word = none)
    (hstack : m.stack = ⟨xs, none⟩) :
    ∃ status log, runItems answer (.word word :: items) m =
      runItems answer items (m.holding (v :: xs) m.input status log) := by
  have hword : word ≠ stringWord := by
    rintro rfl
    cases hnumber
  obtain ⟨status, log, hres⟩ := evalWord_number answer (m := { m with input := [] }) hidle hnumber hstack
  refine ⟨status, log, ?_⟩
  rw [runItems_word _ hword, bind_of_ok]
  rw [runItemWord_global hfree, withInput_eq, hres]
  rfl

/-- a name that a running body binds -/
theorem runItems_local {word : String} (hword : word ≠ stringWord) {v : Value} (hlocal : m.findLocal? word = some v)
    (hstack : m.stack = ⟨xs, none⟩) :
    runItems answer (.word word :: items) m = runItems answer items { m with stack := ⟨v :: xs, none⟩ } := by
  rw [runItems_word _ hword, bind_of_ok ((runItemWord_local hlocal).trans (push_unbounded v hstack))]

theorem runItems_string (hm : m.dictionary.Built natives) (hidle : m.isCompiling = false) {text : String}
    (unquoted : '"' ∉ text.toList) (hstack : m.stack = ⟨xs, none⟩) :
    ∃ status log, runItems answer (.word stringWord :: .word text :: items) m =
      runItems answer items (m.holding (.string text :: xs) m.input status log) := by
  have htaken : Token.takeUntil '"' (text.toList ++ ['"']) = some (text.toList, []) :=
    Token.takeUntil_eq_some_iff.2 ⟨rfl, unquoted⟩
  obtain ⟨log, hlog⟩ := evalWord_string answer (m := { m with input := text.toList ++ ['"'] }) hm hidle htaken
  rw [String.ofList_toList, push_unbounded (m := { m with input := [], log }) (.string text) hstack] at hlog
  obtain ⟨status, log', hsettle⟩ :=
    Machine.settle_none { m with stack := ⟨.string text :: xs, none⟩, input := [], log } stringWord
  refine ⟨status, log', ?_⟩
  rw [runItems_text, bind_of_ok]
  rw [runItemString, withInput_eq, hlog, settled_ok, hsettle]
  rfl

end Items

/-- a word that is called and opens a definition leaves it open -/
theorem runItemWord_opens {m : Machine} (hm : m.dictionary.Built natives) (hidle : m.isCompiling = false)
    (hroom : m.callDepth < m.maxCallDepth) {name : String} (fit : IsName name)
    (hnative : Dictionary.nativesOf natives name = []) (hfree : m.findLocal? name = none)
    (hb : m.dictionary.body? name = some (.ofWords name [":"])) (j : Nat) :
    ∃ status log, runItemWord (answerUpTo (j + 1)) name m =
      .ok () (m.reading [Body.empty .word] m.input status log) := by
  obtain ⟨log, hcall⟩ := evalWord_call (m := { m with input := [] }) hm hidle fit hnative hb rfl j
  obtain ⟨st₁, log₁, hopen⟩ := evalWord_opens (answerUpTo j)
    (m := { m with input := [], callDepth := m.callDepth + 1, scopes := [[]], log }) hidle (by decide)
    (Token.literal_eq_name_iff.2 (by decide)) ((colon_core.append _).lookup hm m.stack) (.inl ⟨rfl, rfl⟩)
  have hitems : runItems (answerUpTo j) [.word ":"]
      { m with input := [], callDepth := m.callDepth + 1, scopes := [[]], log } =
        .ok () { m.reading [Body.empty .word] [] st₁ log₁ with callDepth := m.callDepth + 1, scopes := [[]] } := by
    rw [runItems_word _ (by decide)]
    exact bind_of_ok ((runItemWord_global rfl).trans (congrArg (onLine []) hopen))
  have hbody := (inCall_eq (m := { m with input := [], log }) (b := .ofWords name [":"]) hroom _).trans
    (congrArg (returned m.scopes) hitems)
  obtain ⟨st₂, log₂, hsettle⟩ := Machine.settle_none (m.reading [Body.empty .word] [] st₁ log₁) name
  have hword := (hcall.trans (congrArg (settled name) hbody)).trans (congrArg (EStateM.Result.ok ()) hsettle)
  exact ⟨st₂, log₂, (runItemWord_global hfree).trans (congrArg (onLine m.input) hword)⟩

/-! ## Names in a line -/

/-- a word without items -/
theorem sources_empty : Sources natives ": F ;" (.ofWords "F" []) :=
  .ofWords "F ;".toList ";".toList ";".toList (by decide) (by decide) ⟨by decide, by decide, by decide⟩
    (fun _ _ _ => id) rfl (by simp)

/-- the same stack, generator and tracing -/
def SameView (v d : Machine) : Prop := v.stack = d.stack ∧ v.seed = d.seed ∧ v.tracing = d.tracing

/-- a line that consists of the name of an installed word calls it, and ends as the call does -/
theorem eval_name {m : Machine} (hm : m.dictionary.Built natives) (hidle : m.isCompiling = false) {name : String}
    (hname : Token.IsWord name.toList) (fit : IsName name) (hnative : Dictionary.nativesOf natives name = []) {b : Body}
    (hb : m.dictionary.body? name = some b) (hkind : b.kind = .word) {j : Nat} (hj : m.allowance = j + 1) :
    ∃ log, Outcomes SameView (fun f v f' v' => f' = f ∧ v.stack = v'.stack) (fun _ => False)
      (inCall b (runItems (answerUpTo j) b.items) { m with input := [], log }) (Machine.eval name m) := by
  have hanswer := answerUpTo_evolves (j + 1)
  have hread : Token.next name.toList = (name.toList, []) := by
    simpa using Token.next_word hname Token.endsWord_nil
  obtain ⟨log, hcall⟩ := evalWord_call (m := { m with input := [] }) hm hidle fit hnative hb hkind j
  refine ⟨log, ?_⟩
  have heval : Machine.eval name m = evalLine (answerUpTo (j + 1)) name.toList m := by rw [Machine.eval, hj]
  rw [heval, evalLine_eq hanswer]
  cases hr : inCall b (runItems (answerUpTo j) b.items) { m with input := [], log } with
  | ok _ v =>
    obtain ⟨status, log', hsettle⟩ := v.settle_none name
    have hinput : v.input = [] := by
      have hev := inCall_evolves b (runItems_evolves (answerUpTo_evolves j) b.items) { m with input := [], log }
      rw [hr] at hev
      simpa using hev.input
    have hline : Leads (answerUpTo (j + 1)) { m with input := name.toList } { v with status, log := log' } := by
      refine .word hanswer hread hname.1 ?_
      rw [String.ofList_toList, hcall, hr, ← hsettle]
      rfl
    rw [hline.rest, evalRest_end (by simp only [hinput]; rfl)]
    exact .ok () ⟨rfl, rfl, rfl⟩
  | error f v =>
    obtain ⟨status, log', hsettle⟩ := v.settle_some name f
    rw [evalRest_error hanswer (m := { m with input := name.toList }) hread hname.1
      (by rw [String.ofList_toList, hcall, hr, settled_error]), hsettle]
    exact .error ⟨rfl, rfl⟩

end ReversePolish
