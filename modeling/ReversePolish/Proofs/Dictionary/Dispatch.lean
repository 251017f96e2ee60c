/-
Which definition of a name applies does not depend on the order of registration, where at most one accepts the stack.

`Interleaved name defs history` says that a history registers these definitions under the name, in some order, and that
all it does besides is about other names. Results:
- `definitions_perform_other`, `definitions_foldl_perform`: one operation on another name changes nothing of a name, so
  a whole history leaves it the definitions registered under it, in their order;
- `find?_eq_of_unique`: a definition that alone accepts the stack is found wherever it stands;
- `evalOne_unmatched`, `eval_unmatched`: a name without a definition for the stack fails as a word and in a line;
- `dispatch_order_irrelevant` puts these together.
-/
import ReversePolish.Proofs.Dictionary.History
import ReversePolish.Proofs.Machine.Capture

namespace ReversePolish

namespace Dictionary

/-! ## Registrations among other operations -/

/-- the name that an operation is about -/
def Operation.name : Operation → String
  | .register name _ => name
  | .remove name => name
  | .removeCompiled name => name

/-- the history registers these definitions under the name, in some order, and does nothing else to it -/
def Interleaved (name : String) (defs : List Definition) (history : List Operation) : Prop :=
  ∃ order : List Definition, order.Perm defs ∧ history.filter (·.name = name) = order.map (Operation.register name)

theorem definitions_perform_other {d : Dictionary} (hd : d.Proper) {op : Operation} {name : String}
    (hother : op.name ≠ name) : (d.perform op).definitions name = d.definitions name := by
  have hdrops (x : Definition) : op.drops name x = false := by
    cases op with
    | register other y => rfl
    | remove other => exact decide_eq_false hother
    | removeCompiled other =>
      have hne : ¬ other = name := hother
      simp [Operation.drops, hne]
  have hadds : op.adds name = [] := by
    cases op with
    | register other y => exact if_neg fun h => hother h.1
    | remove other => rfl
    | removeCompiled other => rfl
  rw [definitions_perform hd, Operation.keeps_all hdrops, hadds, List.append_nil]

/-- what is registered under a name stands behind its definitions, whatever is done to other names in between -/
theorem definitions_foldl_perform {name : String} (hname : name ≠ "") (history : List Operation) {d : Dictionary}
    (hd : d.Proper) {order : List Definition}
    (h : history.filter (·.name = name) = order.map (Operation.register name)) :
    (history.foldl perform d).definitions name = d.definitions name ++ order := by
  induction history generalizing d order with
  | nil =>
    have hnil : order = [] := List.map_eq_nil_iff.1 h.symm
    rw [hnil, List.append_nil, List.foldl_nil]
  | cons op history ih =>
    rw [List.foldl_cons]
    by_cases hop : op.name = name
    · -- the operation is the first registration that is due
      rw [List.filter_cons_of_pos (by simpa using hop)] at h
      cases order with
      | nil => cases h
      | cons x order =>
        obtain ⟨rfl, hrest⟩ := List.cons.inj h
        have hperform : (d.perform (.register name x)).definitions name = d.definitions name ++ [x] :=
          (definitions_register hname x name).trans (if_pos rfl)
        rw [ih (hd.perform _) hrest, hperform, List.append_assoc, List.singleton_append]
    · rw [List.filter_cons_of_neg (by simpa using hop)] at h
      rw [ih (hd.perform op) h, definitions_perform_other hd hop]

/-- the only definition that accepts the stack is found, wherever it stands -/
theorem find?_eq_of_unique {p : Definition → Bool} {defs : List Definition} (hunique : defs.countP p ≤ 1)
    {x : Definition} (hx : x ∈ defs) (hp : p x = true) : defs.find? p = some x := by
  have hmem : x ∈ defs.filter p := List.mem_filter.2 ⟨hx, hp⟩
  rw [List.countP_eq_length_filter] at hunique
  rw [← List.head?_filter]
  cases hfilter : defs.filter p with
  | nil =>
    rw [hfilter] at hmem
    cases hmem
  | cons y rest =>
    rw [hfilter] at hmem hunique
    obtain rfl : rest = [] := List.length_eq_zero_iff.1 (by simpa using hunique)
    rw [List.mem_singleton.1 hmem, List.head?_cons]

end Dictionary

/-! ## Names that do not apply -/

/-- the fault of a name without a definition for the stack -/
def Dictionary.unmatched (d : Dictionary) (word : String) : Fault :=
  if d.contains word then .noMatch word else .notFound word

section Unmatched

variable {word : String} {m : Machine} (hword : word ≠ "" ∧ Token.isNumeric word.toList = false)
  (hidle : m.isCompiling = false) (hlookup : m.dictionary.lookup word m.stack = none)

include hword hidle hlookup

theorem evalWord_unmatched (answer : Answer) :
    ∃ m', evalWord answer word m = .error (m.dictionary.unmatched word) m' ∧ m'.stack = m.stack := by
  obtain ⟨log, hlog⟩ := evalWord_idle answer hword.1 hidle
  have hrun : runWord answer word { m with log } = .error (m.dictionary.unmatched word) { m with log } :=
    runWord_unmatched (m := { m with log }) (Token.literal_eq_name_iff.2 hword.2) hlookup
  obtain ⟨status, log', hsettle⟩ := Machine.settle_some { m with log } word (m.dictionary.unmatched word)
  refine ⟨Machine.settle word (some (m.dictionary.unmatched word)) { m with log }, ?_, ?_⟩
  · rw [hlog, hrun]
    rfl
  · rw [hsettle]

theorem evalOne_unmatched (rest : String) :
    ∃ m', (m.evalOne word rest).1 = .error (m.dictionary.unmatched word) m' ∧ m'.stack = m.stack := by
  obtain ⟨m', hm', hstack⟩ :=
    evalWord_unmatched (m := { m with input := rest.toList }) hword hidle hlookup (answerUpTo m.allowance)
  refine ⟨{ m' with input := m.input }, ?_, hstack⟩
  unfold Machine.evalOne
  rw [hm']

/-- a line that starts with the name fails at once -/
theorem eval_unmatched {line : String} (hline : (Token.next line.toList).1 = word.toList) :
    ∃ m', Machine.eval line m = .error (m.dictionary.unmatched word) m' ∧ m'.stack = m.stack := by
  obtain ⟨m', hm', hstack⟩ := evalWord_unmatched (m := { m with input := (Token.next line.toList).2 }) hword hidle
    hlookup (answerUpTo m.allowance)
  have hne : word.toList ≠ [] := fun h => hword.1 (String.toList_eq_nil_iff.1 h)
  have hnext : Token.next line.toList = (word.toList, (Token.next line.toList).2) := Prod.ext hline rfl
  have hrest : evalRest (answerUpTo m.allowance) { m with input := line.toList } =
      .error (m.dictionary.unmatched word) m' := by
    refine evalRest_error (answerUpTo_evolves _) (m := { m with input := line.toList }) hnext hne ?_
    rw [String.ofList_toList]
    exact hm'
  refine ⟨{ (m'.record (.failed m'.status (m.dictionary.unmatched word).message)) with input := m.input }, ?_, hstack⟩
  rw [Machine.eval, evalLine_eq (answerUpTo_evolves _), hrest]
  rfl

end Unmatched

/-! ## Dispatch -/

/-- the name fails for want of a definition that accepts the stack, as a word and at the head of a line -/
structure NoMatch (name : String) (m : Machine) : Prop where
  word : ∀ rest, ∃ fault m', (m.evalOne name rest).1 = .error fault m' ∧ fault = .noMatch name ∧ fault.kind = .param ∧
    m'.stack = m.stack
  line : ∀ text : String, (Token.next text.toList).1 = name.toList →
    ∃ fault m', Machine.eval text m = .error fault m' ∧ fault = .noMatch name ∧ fault.kind = .param ∧
      m'.stack = m.stack

theorem noMatch_of_lookup {name : String} {m : Machine} (hname : name ≠ "" ∧ Token.isNumeric name.toList = false)
    (hidle : m.isCompiling = false) (hlookup : m.dictionary.lookup name m.stack = none)
    (hcontains : m.dictionary.contains name = true) : NoMatch name m := by
  have hfault : m.dictionary.unmatched name = .noMatch name := if_pos hcontains
  refine ⟨fun rest => ?_, fun text htext => ?_⟩
  · obtain ⟨m', hm', hstack⟩ := evalOne_unmatched hname hidle hlookup rest
    exact ⟨_, m', hfault ▸ hm', rfl, rfl, hstack⟩
  · obtain ⟨m', hm', hstack⟩ := eval_unmatched hname hidle hlookup htext
    exact ⟨_, m', hfault ▸ hm', rfl, rfl, hstack⟩

/-- **Dispatch does not depend on the order of registration.** Let definitions be registered under a free name in any
order, with any operations on other names in between, and let at most one of them accept a stack. If one does, it is the
one that applies. If none does, none applies, and to evaluate the name outside a compilation is a parameter error. -/
theorem dispatch_order_irrelevant {d : Dictionary} (hd : d.Proper) {name : String}
    (hname : name ≠ "" ∧ Token.isNumeric name.toList = false) (hfree : d.contains name = false)
    {defs : List Definition} (hdefs : defs ≠ []) {s : Stack} (hdisjoint : defs.countP (·.validator.accepts s) ≤ 1)
    {history : List Dictionary.Operation} (h : Dictionary.Interleaved name defs history) :
    (∀ x ∈ defs, x.validator.accepts s = true →
      (history.foldl Dictionary.perform d).lookup name s = some x) ∧
    ((∀ x ∈ defs, x.validator.accepts s = false) →
      (history.foldl Dictionary.perform d).lookup name s = none ∧
      ∀ m : Machine, m.dictionary = history.foldl Dictionary.perform d → m.stack = s → m.isCompiling = false →
        NoMatch name m) := by
  obtain ⟨order, hperm, hregistered⟩ := h
  have hnone : d.definitions name = [] := by
    by_contra hsome
    rw [(hd.contains_iff name).2 hsome] at hfree
    cases hfree
  have hafter : (history.foldl Dictionary.perform d).definitions name = order := by
    rw [Dictionary.definitions_foldl_perform hname.1 history hd hregistered, hnone, List.nil_append]
  have hproper : (history.foldl Dictionary.perform d).Proper :=
    List.foldlRecOn history Dictionary.perform hd fun d' hd' op _ => hd'.perform op
  unfold Dictionary.lookup
  rw [hafter]
  refine ⟨fun x hx haccepts => ?_, fun hrefuse => ?_⟩
  · exact Dictionary.find?_eq_of_unique (by rwa [hperm.countP_eq]) (hperm.mem_iff.2 hx) haccepts
  · have hfind : order.find? (·.validator.accepts s) = none := by
      rw [List.find?_eq_none]
      intro x hx
      simp [hrefuse x (hperm.mem_iff.1 hx)]
    refine ⟨hfind, fun m hm hstack hidle => ?_⟩
    have hlookup : m.dictionary.lookup name m.stack = none := by
      unfold Dictionary.lookup
      rw [hm, hafter, hstack, hfind]
    have hcontains : m.dictionary.contains name = true := by
      rw [hm, hproper.contains_iff, hafter]
      intro hnil
      exact hdefs (hnil ▸ hperm).nil_eq.symm
    exact noMatch_of_lookup hname hidle hlookup hcontains

/-- three kinds of validators, of which the count on top alone accepts the first stack, and none the second -/
theorem dispatch_order_irrelevant_validators :
    ∃ (typed count deep : Definition) (history : List Dictionary.Operation),
      [typed, count, deep].map Definition.validator = [.kinds [.any, .kind .double], .countOnTop, .depth 3] ∧
      Dictionary.Interleaved "W" [typed, count, deep] history ∧ history.length = 6 ∧
      (history.foldl Dictionary.perform {}).lookup "W" ⟨[.integer 1, .string "a"], none⟩ = some count ∧
      (history.foldl Dictionary.perform {}).lookup "W" {} = none ∧
      NoMatch "W" { dictionary := history.foldl Dictionary.perform {} } := by
  obtain ⟨typed, htyped⟩ : ∃ x, x = Definition.mk (.kinds [.any, .kind .double]) .showStack .none := ⟨_, rfl⟩
  obtain ⟨count, hcount⟩ : ∃ x, x = Definition.mk .countOnTop .showStack .none := ⟨_, rfl⟩
  obtain ⟨deep, hdeep⟩ : ∃ x, x = Definition.mk (.depth 3) .showStack .none := ⟨_, rfl⟩
  have hinterleaved : Dictionary.Interleaved "W" [typed, count, deep]
      [.register "V" typed, .register "W" deep, .removeCompiled "V", .register "W" count, .remove "V",
        .register "W" typed] :=
    ⟨[deep, count, typed], List.reverse_perm [typed, count, deep], rfl⟩
  have hname : "W" ≠ "" ∧ Token.isNumeric "W".toList = false := by decide
  have hone := dispatch_order_irrelevant Dictionary.proper_empty hname rfl (by simp)
    (s := ⟨[.integer 1, .string "a"], none⟩) (by subst htyped hcount hdeep; decide) hinterleaved
  have hnone := dispatch_order_irrelevant Dictionary.proper_empty hname rfl (by simp) (s := {})
    (by subst htyped hcount hdeep; decide) hinterleaved
  obtain ⟨hlookup, hfails⟩ := hnone.2 (by subst htyped hcount hdeep; decide)
  refine ⟨typed, count, deep, _, by subst htyped hcount hdeep; rfl, hinterleaved, rfl, ?_, hlookup,
    hfails _ rfl rfl rfl⟩
  exact hone.1 count (by simp) (by subst hcount; decide)

end ReversePolish
