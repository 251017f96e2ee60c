/-
Native words do not see what lies below their operands.

`Above` relates a machine to one whose stack has the same items on top of others; events may differ, since a word may
show the whole stack. Results:
- `Definition.run_local`: a native definition that succeeds does the same on top of other items, unless it acts on the
  whole stack;
- `lookup_raised`: look-up chooses the same definition, since every definition that was tried before and refused the
  stack goes on to refuse it (`natives_apart`). There is one exception, `InsertsBelow`: a text above a list is appended
  to it, but is the key of an entry if a map lies below the list;
- `native_words_local`: both together, for the words of a fresh session.
-/
import ReversePolish.Proofs.Word.Cover

namespace ReversePolish

/-! ## Machines on top of other items -/

/-- the same machine but for its stack, which is on top of other items, and for its events -/
inductive Machine.Above (g : Stack.Lift) (m : Machine) : Machine → Prop
  | mk {stack : Stack} (log : List Event) (h : m.stack.Raised g stack) : Above g m { m with stack, log }

/-- where the step succeeds, it does the same on top of other items -/
def MachineM.Local {α : Type} (x : MachineM α) : Prop := ∀ g, Tolerant (fun _ => True) (Machine.Above g) x

namespace MachineM.Local

variable {α β : Type}

theorem bind {x : MachineM α} {f : α → MachineM β} (hx : x.Local) (hf : ∀ a, (f a).Local) : (x >>= f).Local :=
  fun g => .bind (hx g) fun a => hf a g

theorem ofEffect {x : Effect α} (hx : x.Portable) : (MachineM.ofEffect x).Local := by
  rintro g m n ⟨log, h⟩
  have hrun := hx g _ _ h
  unfold MachineM.ofEffect
  dsimp only
  generalize x m.stack = r at hrun ⊢
  generalize x _ = r' at hrun ⊢
  cases hrun with
  | ok a h => exact .ok a ⟨log, h⟩
  | error h => exact .cut trivial
  | cut h => exact .cut trivial

theorem push (v : Value) : (Machine.push v).Local := ofEffect (.ofStack (Stack.push_portable v))

theorem takeUntil (delimiter : Char) (missing : Fault) : (Machine.takeUntil delimiter missing).Local := by
  rintro g m n ⟨log, h⟩
  unfold Machine.takeUntil
  dsimp only
  split
  · exact .ok _ ⟨log, h⟩
  · exact .cut trivial

end MachineM.Local

/-! ## Native definitions -/

theorem CoreWord.run_local (w : CoreWord) : w.run.Local := by
  cases w with
  | define | loop =>
    rintro g m n ⟨log, h⟩
    exact .ok _ ⟨log, h⟩
  | comment => exact .bind (.takeUntil _ _) fun _ _ => .pure _
  | string => exact .bind (.takeUntil _ _) fun _ => .push _
  | trace =>
    refine .bind (.ofEffect (.ofStack (Stack.popWith_portable _ _))) fun on => ?_
    rintro g m n ⟨log, h⟩
    exact .ok _ ⟨log, h⟩
  | boolean b => exact .push _
  | strayEnd | strayNext => exact fun _ => .throw _

theorem nextRandom_local : nextRandom.Local := by
  rintro g m n ⟨log, h⟩
  exact .ok _ ⟨log, h⟩

theorem RandomWord.run_local (w : RandomWord) : (w.run (.extension .generator)).Local := by
  cases w with
  | integer | unit => exact .bind nextRandom_local fun _ => .push _
  | seed =>
    refine .bind (.ofEffect (.ofStack (Stack.popWith_portable _ _))) fun seed => ?_
    rintro g m n ⟨log, h⟩
    exact .ok _ ⟨log, h⟩

/-- showing the stack changes nothing but the events -/
theorem showStack_local : showStack.Local := by
  rintro g m n ⟨log, h⟩
  change Follows _ _ (.ok () (m.stack.events.foldl Machine.record m)) (.ok () (List.foldl Machine.record _ _))
  rw [Machine.foldl_record, Machine.foldl_record]
  exact .ok () ⟨_, h⟩

def Action.isLocal : Action → Bool
  | .operator o => o.isLocal
  | _ => true

theorem Definition.run_local {x : Definition} (hx : x.isNative = true) (hlocal : x.action.isLocal = true)
    (answer : Answer) : (x.run answer).Local := by
  obtain ⟨validator, action, context⟩ := x
  cases action with
  | core w => exact w.run_local
  | operator o => exact .ofEffect (Operator.run_portable hlocal)
  | random w =>
    obtain rfl := Definition.context_of_isNative hx
    exact w.run_local
  | showStack => exact showStack_local
  | compiled | script steps => simp [Definition.isNative] at hx

/-! ## Look-up -/

/-- the words that act on the whole stack -/
def wholeStackWords : List String := ["DEPTH", "CLEAR", "ROLLU", "ROLLD", "REVERSE"]

theorem isLocal_of_mem_natives : ∀ e ∈ natives, e.1 ∈ wholeStackWords ∨ e.2.action.isLocal = true := by decide +kernel

/-- a key above a value above a map -/
def entryAboveMap : Validator := .kinds [.kind .string, .any, .kind .map]

/-- a value above a list -/
def valueAboveList : Validator := .kinds [.any, .kind .list]

/-- does the earlier of two definitions of one name refuse what the later accepts, whatever lies below? -/
def Named.apart (e x : Named) : Bool :=
  e.2.validator.settledBy x.2.validator || e.1 != x.1 ||
    (e.1 == "+" && e.2.validator == entryAboveMap && x.2.validator == valueAboveList)

theorem natives_apart : natives.Pairwise fun e x => Named.apart e x = true := by decide +kernel

/-- a text above a list, and nothing else, on top of a map -/
def InsertsBelow (name : String) (s t : List Value) : Prop :=
  name = "+" ∧ (∃ key items, s = [.string key, .list items]) ∧ ∃ entries rest, t = .map entries :: rest

theorem insertsBelow_of_accepts {s t : Stack} {below : List Value} (ht : t.items = s.items ++ below)
    (hx : valueAboveList.accepts s = true) (he : entryAboveMap.accepts s = false)
    (he' : entryAboveMap.accepts t = true) : InsertsBelow "+" s.items below := by
  simp only [valueAboveList, entryAboveMap, Validator.accepts, ht] at hx he he'
  rcases hs : s.items with _ | ⟨key, _ | ⟨list, rest⟩⟩
  · simp [hs, Validator.fits] at hx
  · simp [hs, Validator.fits] at hx
  · simp only [hs, List.cons_append, Validator.fits, Slot.accepts, Bool.true_and, Bool.and_true, beq_iff_eq,
      Bool.and_eq_true] at hx he he'
    obtain ⟨hkey, hmap⟩ := he'
    -- a third item of the stack itself would be the map, and would have been accepted
    rcases rest with _ | ⟨third, rest⟩
    · rcases below with _ | ⟨map, below⟩
      · simp [Validator.fits] at hmap
      · have hkind : Kind.map = map.kind := by simpa [Validator.fits, Slot.accepts] using hmap
        refine ⟨rfl, ?_, ?_⟩
        · cases key <;> cases hkey
          cases list <;> cases hx
          exact ⟨_, _, rfl⟩
        · cases map <;> cases hkind
          exact ⟨_, _, rfl⟩
    · have haccepts : Kind.map = third.kind := by simpa [Validator.fits, Slot.accepts] using hmap
      simp [Validator.fits, Slot.accepts, ← hkey, ← haccepts] at he

/-- the definitions of one name, the earlier before the later -/
theorem nativesOf_apart (name : String) :
    (Dictionary.nativesOf natives name).Pairwise fun e x =>
      e.validator.settledBy x.validator = true ∨
        name = "+" ∧ e.validator = entryAboveMap ∧ x.validator = valueAboveList := by
  refine List.pairwise_map.2 ((natives_apart.filter _).imp_of_mem fun {e x} he hx happart => ?_)
  obtain rfl : e.1 = name := of_decide_eq_true (List.mem_filter.1 he).2
  have hname : x.1 = e.1 := of_decide_eq_true (List.mem_filter.1 hx).2
  simpa [Named.apart, hname, and_assoc] using happart

theorem lookup_raised {d : Dictionary} (hd : d.Built natives) {name : String} (hbody : d.body? name = none)
    {s t : Stack} {below : List Value} (ht : t.items = s.items ++ below) (hinserts : ¬ InsertsBelow name s.items below)
    {x : Definition} (hx : d.lookup name s = some x) : d.lookup name t = some x := by
  rw [hd.lookup_bodiless hbody] at hx ⊢
  obtain ⟨haccepts, before, after, hsplit, hrefused⟩ := List.find?_eq_some_iff_append.1 hx
  refine List.find?_eq_some_iff_append.2 ⟨Validator.accepts_raised ht haccepts, before, after, hsplit, fun e he => ?_⟩
  have hpairs := nativesOf_apart name
  rw [hsplit, List.pairwise_append] at hpairs
  have hrefuses : e.validator.accepts s = false := by simpa using hrefused e he
  suffices h : e.validator.accepts t = false by simpa using h
  rcases hpairs.2.2 e he x List.mem_cons_self with hsettled | ⟨rfl, he', hx'⟩
  · exact Validator.refuses_raised hsettled ht haccepts hrefuses
  · rw [he'] at hrefuses ⊢
    rw [hx'] at haccepts
    exact Bool.eq_false_iff.2 fun h => hinserts (insertsBelow_of_accepts ht haccepts hrefuses h)

/-- in the exception, the value is appended without the map and becomes an entry of it with the map -/
theorem lookup_insertsBelow {d : Dictionary} (hd : d.Built natives) {name : String} (hbody : d.body? name = none)
    {s t : List Value} (h : InsertsBelow name s t) (limit : Option Nat) :
    d.lookup name ⟨s, limit⟩ = some ⟨valueAboveList, .operator (.list .append), .none⟩ ∧
      d.lookup name ⟨s ++ t, limit⟩ = some ⟨entryAboveMap, .operator (.map .insertAbove), .none⟩ := by
  obtain ⟨rfl, ⟨key, items, rfl⟩, entries, rest, rfl⟩ := h
  rw [hd.lookup_bodiless hbody, hd.lookup_bodiless hbody]
  exact ⟨rfl, rfl⟩

/-! ## Words of a fresh session -/

theorem Machine.Above.settle {g : Stack.Lift} {m n : Machine} (h : m.Above g n) (word : String) :
    (m.settle word none).Above g (n.settle word none) := by
  obtain ⟨log, h⟩ := h
  obtain ⟨log₁, hm⟩ := m.settle_ok word
  obtain ⟨log₂, hn⟩ := Machine.settle_ok { m with stack := _, log } word
  rw [hm, hn]
  exact ⟨log₂, h⟩

/-- a word that succeeds by a definition does the same on top of other items, if look-up gives the same definition -/
theorem evalWord_local {answer : Answer} {word : String} (hword : word ≠ "")
    (hliteral : Token.literal word.toList = .name) {g : Stack.Lift} {m n : Machine} (h : m.Above g n)
    (hidle : m.isCompiling = false) {x : Definition} (hm : m.dictionary.lookup word m.stack = some x)
    (hn : n.dictionary.lookup word n.stack = some x) (hx : (x.run answer).Local) :
    Follows (fun _ => True) (Machine.Above g) (evalWord answer word m) (evalWord answer word n) := by
  obtain ⟨log, h⟩ := h
  obtain ⟨log₁, hrun⟩ := evalWord_idle answer hword hidle
  obtain ⟨log₂, hrun'⟩ := evalWord_idle answer hword (m := { m with stack := _, log }) hidle
  rw [hrun, hrun', runWord_lookup hliteral (by exact hm), runWord_lookup hliteral (by exact hn)]
  have hfollows := hx g { m with log := log₁ } _ ⟨log₂, h⟩
  generalize x.run answer { m with log := log₁ } = r at hfollows ⊢
  generalize x.run answer _ = r' at hfollows ⊢
  cases hfollows with
  | ok _ h => exact .ok () (h.settle word)
  | error h => exact .cut trivial
  | cut h => exact .cut trivial

/-- a word that succeeds has a definition that accepts the stack -/
theorem lookup_of_evalWord {answer : Answer} {word : String} (hword : word ≠ "")
    (hliteral : Token.literal word.toList = .name) {m m' : Machine} (hidle : m.isCompiling = false)
    (hrun : evalWord answer word m = .ok () m') : ∃ x, m.dictionary.lookup word m.stack = some x := by
  cases hx : m.dictionary.lookup word m.stack with
  | some x => exact ⟨x, rfl⟩
  | none =>
    obtain ⟨log, hlog⟩ := evalWord_idle answer hword hidle
    rw [hlog, runWord_unmatched hliteral (by exact hx)] at hrun
    cases hrun

theorem evalOne_ok_iff {word rest rest' : String} {m m' : Machine} :
    m.evalOne word rest = (.ok () m', rest') ↔
      ∃ m₁, evalWord (answerUpTo m.allowance) word { m with input := rest.toList } = .ok () m₁ ∧
        m' = { m₁ with input := m.input } ∧ rest' = String.ofList m₁.input := by
  unfold Machine.evalOne
  constructor
  · intro h
    split at h
    · rename_i m₁ hrun
      cases h
      exact ⟨m₁, hrun, rfl, rfl⟩
    · cases h
  · rintro ⟨m₁, hrun, rfl, rfl⟩
    rw [hrun]

/-- stacks without a limit -/
def Stack.Lift.unbounded (below : List Value) : Stack.Lift := ⟨below, none, none, fun _ h => by cases h⟩

theorem Stack.Raised.unbounded {below : List Value} {s t : Stack} (h : s.Raised (.unbounded below) t) :
    s = ⟨s.items, none⟩ ∧ t = ⟨s.items ++ below, none⟩ := by
  obtain ⟨items, limit⟩ := s
  obtain ⟨items', limit'⟩ := t
  obtain ⟨rfl, rfl, rfl⟩ := h
  exact ⟨rfl, rfl⟩

section Fresh

variable {name rest rest' : String} {m m' : Machine} {s t : List Value}
  (hm : m.dictionary.Holds natives (typesSourceWords.reverse ++ stackSourceWords.reverse))
  (hname : name ∈ natives.map Prod.fst) (hwhole : name ∉ wholeStackWords)

include hm hname

/-- a word that succeeds has a native definition that accepts the stack, and the same one on top of other items -/
theorem lookup_fresh {x : Definition} (hx : m.dictionary.lookup name ⟨s, none⟩ = some x)
    (hinserts : ¬ InsertsBelow name s t) :
    (name, x) ∈ natives ∧ m.dictionary.lookup name ⟨s ++ t, none⟩ = some x := by
  have hbody := hm.body?_eq_none hname
  refine ⟨?_, lookup_raised hm.built hbody rfl hinserts hx⟩
  rcases hm.built.lookup_cases hx with hnative | ⟨b, hb, -⟩
  · exact hnative
  · rw [hbody] at hb
    cases hb

include hwhole

theorem evalOne_local (hidle : m.isCompiling = false) (hs : m.stack = ⟨s, none⟩)
    (hrun : m.evalOne name rest = (.ok () m', rest')) (hinserts : ¬ InsertsBelow name s t) :
    m'.stack = ⟨m'.stack.items, none⟩ ∧
      (∃ x, m.dictionary.lookup name ⟨s, none⟩ = some x ∧ m.dictionary.lookup name ⟨s ++ t, none⟩ = some x) ∧
      ∃ log, { m with stack := ⟨s ++ t, none⟩ }.evalOne name rest =
        (.ok () { m' with stack := ⟨m'.stack.items ++ t, none⟩, log }, rest') := by
  obtain ⟨hword, hnumeric⟩ := isName_of_mem_natives name hname
  have hliteral := Token.literal_eq_name_iff.2 hnumeric
  obtain ⟨m₁, hm₁, rfl, rfl⟩ := evalOne_ok_iff.1 hrun
  obtain ⟨x, hx⟩ := lookup_of_evalWord hword hliteral (by exact hidle) hm₁
  have hx' : m.dictionary.lookup name ⟨s, none⟩ = some x := hs ▸ hx
  obtain ⟨hnative, hraised⟩ := lookup_fresh hm hname hx' hinserts
  have hlocal := Definition.run_local (isNative_of_mem_natives _ hnative)
    ((isLocal_of_mem_natives _ hnative).resolve_left hwhole) (answerUpTo m.allowance)
  have habove : Machine.Above (.unbounded t) { m with input := rest.toList }
      { m with input := rest.toList, stack := ⟨s ++ t, none⟩ } := ⟨m.log, by rw [hs]; rfl, by rw [hs]; rfl, rfl⟩
  have hfollows := evalWord_local hword hliteral habove hidle hx hraised hlocal
  rw [hm₁] at hfollows
  cases hn₁ : evalWord (answerUpTo m.allowance) name { m with input := rest.toList, stack := ⟨s ++ t, none⟩ } with
  | error f n₁ =>
    rw [hn₁] at hfollows
    cases hfollows
  | ok _ n₁ =>
    rw [hn₁] at hfollows
    obtain ⟨log, h⟩ : m₁.Above (.unbounded t) n₁ := by
      cases hfollows with
      | ok _ h => exact h
    obtain ⟨hstack, rfl⟩ := h.unbounded
    exact ⟨hstack, ⟨x, hx', hraised⟩, log, evalOne_ok_iff.2 ⟨_, hn₁, rfl, rfl⟩⟩

end Fresh

/-- **Native words are local.** In the dictionary of a fresh session, let a native word that does not act on the whole
stack succeed on the items s of a stack without a limit, and leave s'. On top of any other items t the same definition
applies, the word succeeds and leaves s' on top of t, and the machine is the same but for its events. The one exception
is a text above a list on top of a map. -/
theorem native_words_local {settings : Settings} (hprelude : settings.prelude = []) {fresh : Machine}
    (hstart : Session.start settings = .ok fresh) {name : String} (hname : name ∈ natives.map Prod.fst)
    (hwhole : name ∉ wholeStackWords) {m m' : Machine} (hdictionary : m.dictionary = fresh.dictionary)
    (hidle : m.isCompiling = false) {s : List Value} (hs : m.stack = ⟨s, none⟩) {rest rest' : String}
    (hrun : m.evalOne name rest = (.ok () m', rest')) (t : List Value) :
    ∃ s', m'.stack = ⟨s', none⟩ ∧
      (¬ InsertsBelow name s t →
        (∃ x, m.dictionary.lookup name ⟨s, none⟩ = some x ∧ m.dictionary.lookup name ⟨s ++ t, none⟩ = some x) ∧
        ∃ log, { m with stack := ⟨s ++ t, none⟩ }.evalOne name rest =
          (.ok () { m' with stack := ⟨s' ++ t, none⟩, log }, rest')) ∧
      (InsertsBelow name s t →
        m.dictionary.lookup name ⟨s, none⟩ = some ⟨valueAboveList, .operator (.list .append), .none⟩ ∧
        m.dictionary.lookup name ⟨s ++ t, none⟩ = some ⟨entryAboveMap, .operator (.map .insertAbove), .none⟩) := by
  obtain ⟨dictionary, status, log, hok, hholds⟩ := start_ok hprelude
  have hm : m.dictionary.Holds natives (typesSourceWords.reverse ++ stackSourceWords.reverse) := by
    rw [hdictionary]
    cases hok.symm.trans hstart
    exact hholds
  have hnone : ¬ InsertsBelow name s [] := by
    rintro ⟨-, -, entries, rest, h⟩
    cases h
  refine ⟨m'.stack.items, (evalOne_local hm hname hwhole hidle hs hrun hnone).1, fun hinserts => ?_, fun hinserts => ?_⟩
  · exact (evalOne_local hm hname hwhole hidle hs hrun hinserts).2
  · exact lookup_insertsBelow hm.built (hm.body?_eq_none hname) hinserts none

/-- a text above a list: it is appended on top of a number too, but not on top of a map -/
theorem native_words_local_append :
    ∃ m m' : Machine, m.stack = ⟨[.string "k", .list []], none⟩ ∧ m.evalOne "+" "" = (.ok () m', "") ∧
      (∃ log, { m with stack := ⟨[.string "k", .list [], .integer 1], none⟩ }.evalOne "+" "" =
        (.ok () { m' with stack := ⟨[.list [.string "k"], .integer 1], none⟩, log }, "")) ∧
      m.dictionary.lookup "+" ⟨[.string "k", .list [], .map []], none⟩ =
        some ⟨entryAboveMap, .operator (.map .insertAbove), .none⟩ := by
  obtain ⟨dictionary, status, log, hstart, hholds⟩ := start_ok (s := {}) rfl
  have hname : "+" ∈ natives.map Prod.fst := by decide +kernel
  have hlookup : dictionary.lookup "+" ⟨[.string "k", .list []], none⟩ =
      some ⟨valueAboveList, .operator (.list .append), .none⟩ := by
    rw [hholds.built.lookup_bodiless (hholds.body?_eq_none hname)]
    rfl
  -- nothing is traced, so the word runs on the machine as it is
  have hrun : Machine.evalOne "+" "" { dictionary, stack := ⟨[.string "k", .list []], none⟩ } =
      (.ok () { dictionary, stack := ⟨[.list [.string "k"]], none⟩, status := "+: ok" }, "") := by
    refine evalOne_ok_iff.2 ⟨{ dictionary, stack := ⟨[.list [.string "k"]], none⟩, status := "+: ok" }, ?_, rfl, rfl⟩
    rw [evalWord_eq (by decide)]
    change settled "+" (runWord _ "+" { dictionary, stack := ⟨[.string "k", .list []], none⟩ }) = _
    rw [runWord_lookup (Token.literal_eq_name_iff.2 (by decide)) hlookup]
    rfl
  have hlocal := native_words_local (m := { dictionary, stack := ⟨[.string "k", .list []], none⟩ }) rfl hstart hname
    (by decide) rfl rfl rfl hrun
  obtain ⟨s', hs', happend, -⟩ := hlocal [.integer 1]
  obtain ⟨-, -, -, hinsert⟩ := hlocal [.map []]
  cases hs'
  refine ⟨_, _, rfl, hrun, (happend ?_).2, (hinsert ?_).2⟩
  · rintro ⟨-, -, entries, rest, h⟩
    cases h
  · exact ⟨rfl, ⟨_, _, rfl⟩, _, _, rfl⟩

end ReversePolish
