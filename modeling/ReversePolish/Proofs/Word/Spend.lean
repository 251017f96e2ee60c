/-
Words that fail with their operands gone.

The words that take a value apart take it from the stack and then push its parts one after the other, so a limit may
stop them halfway. `->TC` takes its rate from the stack before it finds out that the rate is refused. Results:
- `pushAll_fits`, `pushAll_full`: values that are pushed one after the other fit, or fill the stack up to its limit;
- `parts_fill_stack`: a value is taken apart if all its parts fit; if not, as many parts as fit take its place;
- `refused_rate_takes_operands`: a refused rate is gone, together with the counts above it.
-/
import ReversePolish.Proofs.Word.Keep

namespace ReversePolish

/-! ## Values pushed one after the other -/

namespace Effect

/-- a value is pushed where there is room for it -/
theorem push_fits {s : Stack} (h : s.Fits 1) (v : Value) :
    Effect.ofStack (Stack.push v) s = .ok () { s with items := v :: s.items } := by
  unfold Effect.ofStack
  rcases Stack.push_cases v s with ⟨-, hpush⟩ | ⟨l, ⟨-, hfull⟩, -⟩
  · rw [hpush]
  · exact absurd h hfull

theorem pushAll_concat (values : List Value) (last : Value) :
    pushAll (values ++ [last]) = (do pushAll values; Stack.push last) := by
  induction values with
  | nil =>
    have hone : pushAll [last] = (do Stack.push last; pure ()) := rfl
    rw [List.nil_append, hone, bind_pure_unit]
    rfl
  | cons v values ih =>
    have hleft : pushAll (v :: values ++ [last]) = (do Stack.push v; pushAll (values ++ [last])) := rfl
    have hright : pushAll (v :: values) = (do Stack.push v; pushAll values) := rfl
    rw [hleft, ih, hright, bind_assoc]

/-- the first of the values is pushed, unless the stack is full -/
theorem pushAll_cons (v : Value) (values : List Value) (s : Stack) :
    s.Fits 1 ∧ pushAll (v :: values) s = pushAll values { s with items := v :: s.items } ∨
      ∃ l, s.limit = some l ∧ l ≤ s.depth ∧ pushAll (v :: values) s = .error (.stack (.overflow l)) s := by
  change _ ∧ EStateM.bind (Effect.ofStack (Stack.push v)) _ s = _ ∨
    ∃ l, _ ∧ _ ∧ EStateM.bind (Effect.ofStack (Stack.push v)) _ s = _
  unfold EStateM.bind Effect.ofStack
  rcases Stack.push_cases v s with ⟨hfits, hpush⟩ | ⟨l, ⟨hl, hfull⟩, hpush⟩
  · rw [hpush]
    exact .inl ⟨hfits, rfl⟩
  · rw [hpush]
    refine .inr ⟨l, hl, ?_, rfl⟩
    by_contra hlt
    refine hfull fun l' hl' => ?_
    cases hl.symm.trans hl'
    omega

theorem pushAll_fits {values : List Value} {s : Stack} (h : s.Fits values.length) :
    pushAll values s = .ok () { s with items := values.reverse ++ s.items } := by
  induction values generalizing s with
  | nil => rfl
  | cons v values ih =>
    rcases pushAll_cons v values s with ⟨-, hpush⟩ | ⟨l, hl, hfull, -⟩
    · have hrest : Stack.Fits { s with items := v :: s.items } values.length := by
        intro l hl
        have hle := h l hl
        simp only [Stack.depth, List.length_cons] at hle ⊢
        omega
      rw [hpush, ih hrest]
      simp
    · have hle := h l hl
      simp only [List.length_cons] at hle
      omega

/-- where not all fit, as many are pushed as there is room for -/
theorem pushAll_full {values : List Value} {s : Stack} {l : Nat} (hl : s.limit = some l) (hdepth : s.depth ≤ l)
    (hfull : l < s.depth + values.length) :
    pushAll values s =
      .error (.stack (.overflow l)) { s with items := (values.take (l - s.depth)).reverse ++ s.items } := by
  induction values generalizing s with
  | nil =>
    simp only [List.length_nil] at hfull
    omega
  | cons v values ih =>
    rcases pushAll_cons v values s with ⟨hfits, hpush⟩ | ⟨l', hl', hle, hpush⟩
    · have hroom := hfits l hl
      rw [List.length_cons] at hfull
      have hdeeper : Stack.depth { s with items := v :: s.items } = s.depth + 1 := rfl
      have hrest := ih (s := { s with items := v :: s.items }) hl (by omega) (by omega)
      have hcount : l - s.depth = l - (s.depth + 1) + 1 := by omega
      rw [hpush, hrest, hdeeper, hcount]
      simp
    · cases hl.symm.trans hl'
      have hzero : l - s.depth = 0 := by omega
      rw [hpush, hzero]
      rfl

end Effect

/-! ## Values and their parts -/

/-- the parts of a value in the order in which they are pushed; lists and maps give their number last -/
def Value.parts? : Value → Option (List Value)
  | .list items => some (items ++ [Effect.count items.length])
  | .map entries => some (entries.flatMap (fun (key, v) => [v, .string key]) ++ [Effect.count entries.length])
  | .vec3 v => some (v.components.map .double)
  | .fraction q => some [.integer q.num, .integer q.den]
  | .timecode t => some [.fraction t.rate, .integer t.hour, .integer t.minute, .integer t.second, .integer t.frame]
  | _ => none

/-- no value is a part of itself -/
theorem Value.not_mem_parts {v : Value} {parts : List Value} (h : v.parts? = some parts) : v ∉ parts := by
  intro hmem
  cases v with
  | list items =>
    cases h
    rcases List.mem_append.1 hmem with hitem | hcount
    · have hlt := List.sizeOf_lt_of_mem hitem
      rw [Value.list.sizeOf_spec] at hlt
      omega
    · simp [Effect.count] at hcount
  | map entries =>
    cases h
    rcases List.mem_append.1 hmem with hpart | hcount
    · obtain ⟨⟨key, w⟩, hentry, hpart⟩ := List.mem_flatMap.1 hpart
      obtain rfl : .map entries = w := by simpa using hpart
      have hlt := List.sizeOf_lt_of_mem hentry
      rw [Prod.mk.sizeOf_spec, Value.map.sizeOf_spec] at hlt
      omega
    · simp [Effect.count] at hcount
  | vec3 w =>
    cases h
    simp at hmem
  | fraction q | timecode t =>
    cases h
    simp at hmem
  | _ => cases h

theorem isName_of_mem_nativesOf {name : String} {x : Definition} (h : x ∈ Dictionary.nativesOf natives name) :
    name ≠ "" ∧ Token.isNumeric name.toList = false :=
  isName_of_mem_natives name (List.mem_map_of_mem (Dictionary.mem_nativesOf.1 h))

/-- the words that take values of a kind apart -/
def explodingWords : Kind → List String
  | .list => ["ARRAY->", "OBJ->"]
  | .map => ["OBJECT->", "OBJ->"]
  | .vec3 => ["VEC3->", "OBJ->"]
  | .fraction | .timecode => ["OBJ->"]
  | _ => []

/-- the operator behind them -/
def Operator.exploding? : Kind → Option Operator
  | .list => some (.list .parts)
  | .map => some (.map .parts)
  | .vec3 => some (.vector .parts)
  | .fraction => some (.fraction .parts)
  | .timecode => some (.timecode .parts)
  | _ => none

theorem Operator.exists_exploding {v : Value} {parts : List Value} (h : v.parts? = some parts) :
    ∃ o, exploding? v.kind = some o := by
  cases v with
  | list _ | map _ | vec3 _ | fraction _ | timecode _ => exact ⟨_, rfl⟩
  | _ => cases h

/-- the value is gone before its parts are pushed -/
theorem Operator.exploding_run {v : Value} {parts : List Value} (hparts : v.parts? = some parts) {o : Operator}
    (ho : exploding? v.kind = some o) (below : List Value) (limit : Option Nat) :
    o.run ⟨v :: below, limit⟩ = Effect.pushAll parts ⟨below, limit⟩ := by
  cases v with
  | list items | map entries =>
    cases hparts
    cases ho
    rw [Effect.pushAll_concat]
    rfl
  | vec3 w | fraction q | timecode t =>
    cases hparts
    cases ho
    rfl
  | _ => cases hparts

/-- the first definition of the word that accepts the value -/
theorem exploding_native {v : Value} {o : Operator} (ho : Operator.exploding? v.kind = some o) {word : String}
    (hword : word ∈ explodingWords v.kind) (below : List Value) (limit : Option Nat) :
    (Dictionary.nativesOf natives word).find? (·.validator.accepts ⟨v :: below, limit⟩) =
      some ⟨.ofKinds [v.kind], .operator o, .none⟩ := by
  cases v with
  | list items | map entries | vec3 w =>
    cases ho
    rcases List.mem_cons.1 hword with rfl | hword
    · rfl
    · obtain rfl := List.mem_singleton.1 hword
      rfl
  | fraction q | timecode t =>
    cases ho
    obtain rfl := List.mem_singleton.1 hword
    rfl
  | _ => cases ho

/-- **Taking a value apart is not all or nothing.** Outside a compilation and with the data stack within its limit, let
a word take apart the value on top. If all parts fit in its place, they are pushed in their order, with their number
last for a list or a map. If not, the word fails over the limit; the value is gone, and as many of its parts as fit are
in its place, so that the data stack is never as it was. -/
theorem parts_fill_stack {v : Value} {parts : List Value} (hparts : v.parts? = some parts) {word : String}
    (hword : word ∈ explodingWords v.kind) {m : Machine} (hidle : m.isCompiling = false)
    (hnative : Dictionary.nativesOf natives word <+: m.dictionary.definitions word) {below : List Value}
    {limit : Option Nat} (hstack : m.stack = ⟨v :: below, limit⟩) (hroom : m.stack.Fits 0) (rest : String) :
    (Stack.Fits ⟨below, limit⟩ parts.length →
      ∃ m', m.evalOne word rest = (.ok () m', rest) ∧ m'.stack = ⟨parts.reverse ++ below, limit⟩) ∧
    ∀ l, limit = some l → l < below.length + parts.length →
      ∃ m', m.evalOne word rest = (.error (.stack (.overflow l)) m', rest) ∧
        m'.stack = ⟨(parts.take (l - below.length)).reverse ++ below, limit⟩ ∧ m'.stack ≠ m.stack := by
  obtain ⟨o, ho⟩ := Operator.exists_exploding hparts
  have hfind := exploding_native ho hword below limit
  have hname := isName_of_mem_nativesOf (List.mem_of_find?_eq_some hfind)
  have hlookup := Dictionary.lookup_of_native hnative hfind
  rw [← hstack] at hlookup
  have hrun := Operator.exploding_run hparts ho below limit
  rw [← hstack] at hrun
  refine ⟨fun hfits => ?_, fun l hl hfull => ?_⟩
  · rw [Effect.pushAll_fits hfits] at hrun
    exact evalOne_operator_ok hname hidle hlookup rest hrun
  · have hdepth := hroom l (by rw [hstack, hl])
    rw [hstack, Stack.depth, List.length_cons] at hdepth
    rw [Effect.pushAll_full hl (by simp only [Stack.depth]; omega) hfull] at hrun
    obtain ⟨m', hm', hstack'⟩ := evalOne_operator_error hname hidle hlookup rest hrun
    refine ⟨m', hm', hstack', fun hsame => Value.not_mem_parts hparts ?_⟩
    rw [hstack', hstack] at hsame
    -- the parts that took the place of the value would be the value itself
    have hitems : (parts.take (l - below.length)).reverse ++ below = [v] ++ below := congrArg Stack.items hsame
    have hmem : v ∈ (parts.take (l - below.length)).reverse := by simp [List.append_cancel_right hitems]
    exact List.mem_of_mem_take (List.mem_reverse.1 hmem)

/-- a vector above a text at a limit of three: two of its components take its place -/
theorem parts_fill_stack_vector :
    ∃ m m' : Machine, m.isCompiling = false ∧
      Dictionary.nativesOf natives "OBJ->" <+: m.dictionary.definitions "OBJ->" ∧
      m.stack = ⟨[.vec3 ⟨1.0, 2.0, 3.0⟩, .string "a"], some 3⟩ ∧ m.stack.Fits 0 ∧
      m.evalOne "OBJ->" "" = (.error (.stack (.overflow 3)) m', "") ∧
      m'.stack = ⟨[.double 2.0, .double 1.0, .string "a"], some 3⟩ ∧ m'.stack ≠ m.stack := by
  obtain ⟨dictionary, status, log, -, hholds⟩ := start_ok (s := {}) rfl
  have hnative := hholds.built.natives_first "OBJ->"
  have hroom : Stack.Fits ⟨[.vec3 ⟨1.0, 2.0, 3.0⟩, .string "a"], some 3⟩ 0 := by
    rintro l ⟨⟩
    decide
  obtain ⟨m', hrun, hstack, hchanged⟩ := (parts_fill_stack
    (m := { dictionary, stack := ⟨[.vec3 ⟨1.0, 2.0, 3.0⟩, .string "a"], some 3⟩ })
    rfl (by decide) rfl hnative rfl hroom "").2 3 rfl (by decide)
  exact ⟨_, m', rfl, hnative, rfl, hroom, hrun, hstack, hchanged⟩

/-- a list of three at a limit of three: its items are pushed, there is no room for their number, and it is gone -/
theorem list_lost_at_limit :
    ∃ m m' : Machine, m.isCompiling = false ∧
      Dictionary.nativesOf natives "ARRAY->" <+: m.dictionary.definitions "ARRAY->" ∧
      m.stack = ⟨[.list [.integer 1, .integer 2, .integer 3]], some 3⟩ ∧ m.stack.Fits 0 ∧
      m.evalOne "ARRAY->" "" = (.error (.stack (.overflow 3)) m', "") ∧
      m'.stack = ⟨[.integer 3, .integer 2, .integer 1], some 3⟩ ∧ m'.stack ≠ m.stack := by
  obtain ⟨dictionary, status, log, -, hholds⟩ := start_ok (s := {}) rfl
  have hnative := hholds.built.natives_first "ARRAY->"
  have hword : "ARRAY->" ∈ explodingWords (Value.kind (.list [.integer 1, .integer 2, .integer 3])) := by decide
  have hfind := exploding_native rfl hword [] (some 3)
  have hroom : Stack.Fits ⟨[.list [.integer 1, .integer 2, .integer 3]], some 3⟩ 0 := by
    rintro l ⟨⟩
    decide
  obtain ⟨m', hm', hstack⟩ := evalOne_operator_error (isName_of_mem_nativesOf (List.mem_of_find?_eq_some hfind))
    (m := { dictionary, stack := ⟨[.list [.integer 1, .integer 2, .integer 3]], some 3⟩ }) rfl
    (Dictionary.lookup_of_native hnative hfind) "" rfl
  refine ⟨_, m', rfl, hnative, rfl, hroom, hm', hstack, fun hsame => ?_⟩
  cases hstack.symm.trans hsame

/-! ## Refused rates -/

/-- both forms of `->TC`: the counts and the rate are taken, and the rate is refused -/
theorem refused_run {rate : Fraction} (hrate : Timecode.counts? rate = none) {counts : List Int64}
    (hcounts : counts.length = 1 ∨ counts.length = 4) (below : List Value) (limit : Option Nat) :
    ∃ validator o,
      (Dictionary.nativesOf natives "->TC").find?
          (·.validator.accepts ⟨counts.map .integer ++ .fraction rate :: below, limit⟩) =
        some ⟨validator, .operator o, .none⟩ ∧
      o.run ⟨counts.map .integer ++ .fraction rate :: below, limit⟩ = .error (.badRate rate) ⟨below, limit⟩ := by
  rcases hcounts with hone | hfour
  · obtain ⟨frames, rfl⟩ := List.length_eq_one_iff.1 hone
    refine ⟨_, .timecode .ofFrames, rfl, ?_⟩
    change TimecodeWord.pushOr rate (Timecode.ofFrames frames rate) ⟨below, limit⟩ = _
    rw [Timecode.ofFrames, hrate]
    rfl
  · obtain ⟨frame, second, minute, hour, rfl⟩ := List.length_eq_four.1 hfour
    refine ⟨_, .timecode .ofFields, rfl, ?_⟩
    change TimecodeWord.pushOr rate (Timecode.ofFields hour minute second frame rate) ⟨below, limit⟩ = _
    rw [Timecode.ofFields, hrate]
    rfl

/-- **A refused rate is gone, and so are the counts.** Outside a compilation, let there be a count of frames or four
fields on top of a rate that is not finite, not positive, or over the highest that is accepted. `->TC` fails over the
rate, with an evaluation fault, and takes the rate and the counts from the data stack. -/
theorem refused_rate_takes_operands {rate : Fraction}
    (hrate : rate.toDouble.isFinite = false ∨ rate.toDouble ≤ 0.0 ∨ Timecode.maxRate < rate.toDouble)
    {counts : List Int64} (hcounts : counts.length = 1 ∨ counts.length = 4) {m : Machine}
    (hidle : m.isCompiling = false)
    (hnative : Dictionary.nativesOf natives "->TC" <+: m.dictionary.definitions "->TC") {below : List Value}
    {limit : Option Nat} (hstack : m.stack = ⟨counts.map .integer ++ .fraction rate :: below, limit⟩) (rest : String) :
    ∃ m', m.evalOne "->TC" rest = (.error (.badRate rate) m', rest) ∧ (Fault.badRate rate).kind = .eval ∧
      m'.stack = ⟨below, limit⟩ ∧ m'.stack ≠ m.stack := by
  obtain ⟨validator, o, hfind, hrun⟩ := refused_run (Timecode.counts?_eq_none_iff.2 hrate) hcounts below limit
  have hname := isName_of_mem_nativesOf (List.mem_of_find?_eq_some hfind)
  have hlookup := Dictionary.lookup_of_native hnative hfind
  rw [← hstack] at hlookup hrun
  obtain ⟨m', hm', hstack'⟩ := evalOne_operator_error hname hidle hlookup rest hrun
  refine ⟨m', hm', rfl, hstack', fun hsame => ?_⟩
  rw [hstack', hstack] at hsame
  have hlength := congrArg Stack.depth hsame
  simp only [Stack.depth, List.length_append, List.length_map, List.length_cons] at hlength
  omega

/-- four fields above a rate of zero, and a text below -/
theorem refused_rate_takes_operands_fields :
    ∃ m m' : Machine, m.isCompiling = false ∧
      Dictionary.nativesOf natives "->TC" <+: m.dictionary.definitions "->TC" ∧
      m.stack = ⟨[.integer 4, .integer 3, .integer 2, .integer 1, .fraction (.ofInteger 0), .string "a"], none⟩ ∧
      Fraction.toDouble (.ofInteger 0) ≤ 0.0 ∧ m.evalOne "->TC" "" = (.error (.badRate (.ofInteger 0)) m', "") ∧
      (Fault.badRate (.ofInteger 0)).kind = .eval ∧ m'.stack = ⟨[.string "a"], none⟩ ∧ m'.stack ≠ m.stack := by
  obtain ⟨dictionary, status, log, -, hholds⟩ := start_ok (s := {}) rfl
  have hnative := hholds.built.natives_first "->TC"
  have hzero : Fraction.toDouble (.ofInteger 0) ≤ 0.0 := by decide +kernel
  have hfour : [(4 : Int64), 3, 2, 1].length = 1 ∨ [(4 : Int64), 3, 2, 1].length = 4 := .inr rfl
  obtain ⟨m', hrefused⟩ := refused_rate_takes_operands
    (m := { dictionary, stack :=
      ⟨[.integer 4, .integer 3, .integer 2, .integer 1, .fraction (.ofInteger 0), .string "a"], none⟩ })
    (.inr (.inl hzero)) hfour rfl hnative rfl ""
  exact ⟨_, m', rfl, hnative, rfl, hzero, hrefused⟩

/-- a count of frames above a rate of zero: nothing is left -/
theorem rate_lost_when_refused :
    ∃ m m' : Machine, m.isCompiling = false ∧
      Dictionary.nativesOf natives "->TC" <+: m.dictionary.definitions "->TC" ∧
      m.stack = ⟨[.integer 10, .fraction (.ofInteger 0)], none⟩ ∧
      m.evalOne "->TC" "" = (.error (.badRate (.ofInteger 0)) m', "") ∧ m'.stack = ⟨[], none⟩ ∧ m'.stack ≠ m.stack := by
  obtain ⟨dictionary, status, log, -, hholds⟩ := start_ok (s := {}) rfl
  have hnative := hholds.built.natives_first "->TC"
  have hrate : Timecode.counts? (.ofInteger 0) = none := rfl
  have hone : [(10 : Int64)].length = 1 ∨ [(10 : Int64)].length = 4 := .inl rfl
  obtain ⟨validator, o, hfind, hrun⟩ := refused_run hrate hone [] none
  obtain ⟨m', hm', hstack⟩ := evalOne_operator_error (isName_of_mem_nativesOf (List.mem_of_find?_eq_some hfind))
    (m := { dictionary, stack := ⟨[.integer 10, .fraction (.ofInteger 0)], none⟩ }) rfl
    (Dictionary.lookup_of_native hnative hfind) "" hrun
  refine ⟨_, m', rfl, hnative, rfl, hm', hstack, fun hsame => ?_⟩
  cases hstack.symm.trans hsame

end ReversePolish
