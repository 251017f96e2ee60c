/-
Source text rebuilds the value it was written for.

`Takes` says what a text does to the top of an unbounded stack when it is evaluated, whatever stands below and whatever
follows in the line. Texts with a blank between them compose (`Takes.trans`, `Chain.takes`), and there is one lemma for
each kind of word that a source text has: numbers, texts and native words. `Storable` are the values that have a source
but for their texts, and `Unsourced` what stands in the way. Results:
- `Storable.takes_source`: the source of a value pushes exactly this value;
- `Storable.source?_eq_none_iff`: a value has no source exactly if a text or a key in it has a quote, or a map in it is
  empty;
- `eval_source`: both together, for a line of a session.
-/
import ReversePolish.Proofs.Fraction
import ReversePolish.Proofs.Machine.Simulation
import ReversePolish.Proofs.Number.Decimal
import ReversePolish.Proofs.Stack.Front
import ReversePolish.Proofs.Timecode
import ReversePolish.Proofs.Word.Operand
import ReversePolish.Value.Source

namespace ReversePolish

variable {answer : Answer}

/-! ## What a text does to the stack -/

/-- a machine outside a compilation, with these items on an unbounded stack -/
structure Ready (m : Machine) (items : List Value) : Prop where
  built : m.dictionary.Built natives
  idle : m.isCompiling = false
  stack : m.stack = ⟨items, none⟩

/-- evaluating the text takes the first items on top of the stack to the second, and changes nothing else -/
def Takes (answer : Answer) (text : String) (xs ys : List Value) : Prop :=
  ∀ (m : Machine) (below : List Value) (rest : List Char), Ready m (xs ++ below) → m.input = text.toList ++ rest →
    Token.EndsWord rest →
      ∃ status log, Leads answer m (m.holding (ys ++ below) rest status log)

/-- texts one after the other -/
inductive Chain (answer : Answer) : List String → List Value → List Value → Prop
  | nil (xs : List Value) : Chain answer [] xs xs
  | cons {text : String} {texts : List String} {xs ys zs : List Value} (first : Takes answer text xs ys)
    (rest : Chain answer texts ys zs) : Chain answer (text :: texts) xs zs

section Takes

variable (hanswer : ∀ r, Evolving (answer r))

/-- items below the ones that are taken stay -/
theorem Takes.frame {text : String} {xs ys : List Value} (h : Takes answer text xs ys) (zs : List Value) :
    Takes answer text (xs ++ zs) (ys ++ zs) := by
  intro m below rest hm hinput hrest
  rw [List.append_assoc] at hm ⊢
  exact h m (zs ++ below) rest hm hinput hrest

include hanswer in
theorem Leads.holding_blank (m : Machine) (items : List Value) {c : Char} (hc : Text.isBlank c = true)
    (rest : List Char) (status : String) (log : List Event) :
    Leads answer (m.holding items (c :: rest) status log) (m.holding items rest status log) :=
  Leads.blank hanswer (m := m.holding items rest status log) hc rest

include hanswer in
theorem Takes.trans {s t : String} {xs ys zs : List Value} (hs : Takes answer s xs ys) (ht : Takes answer t ys zs) :
    Takes answer (s ++ " " ++ t) xs zs := by
  intro m below rest hm hinput hrest
  have hsplit : m.input = s.toList ++ ' ' :: (t.toList ++ rest) := by simpa using hinput
  obtain ⟨st₁, log₁, hfirst⟩ := hs m below _ hm hsplit (Token.endsWord_space _)
  obtain ⟨st₂, log₂, hsecond⟩ := ht (m.holding (ys ++ below) (t.toList ++ rest) st₁ log₁) below rest
    ⟨hm.built, hm.idle, rfl⟩ rfl hrest
  exact ⟨st₂, log₂, (hfirst.trans (.holding_blank hanswer m _ rfl _ st₁ log₁)).trans hsecond⟩

include hanswer in
/-- a text followed by a word, with the blank written in front of the word -/
theorem Takes.followed {s t word : String} {xs ys zs : List Value} (hs : Takes answer s xs ys)
    (hword : Takes answer word ys zs) (ht : t = " " ++ word) : Takes answer (s ++ t) xs zs := by
  rw [ht, ← String.append_assoc]
  exact hs.trans hanswer hword

theorem Chain.append {texts more : List String} {xs ys zs : List Value} (h : Chain answer texts xs ys)
    (h' : Chain answer more ys zs) : Chain answer (texts ++ more) xs zs := by
  induction h with
  | nil => exact h'
  | cons first _ ih => exact .cons first (ih h')

include hanswer in
theorem Chain.takes {texts : List String} {xs ys : List Value} (h : Chain answer texts xs ys) :
    Takes answer (" ".intercalate texts) xs ys := by
  induction h with
  | nil xs =>
    intro m below rest hm hinput _
    have hsame : m.holding (xs ++ below) rest m.status m.log = m := by
      unfold Machine.holding
      rw [← hm.stack]
      cases m
      cases hinput
      rfl
    exact ⟨m.status, m.log, by rw [hsame]; exact .refl m⟩
  | @cons text texts xs ys zs first rest ih =>
    cases texts with
    | nil =>
      cases rest
      rwa [String.intercalate_singleton]
    | cons u texts =>
      rw [String.intercalate_cons_cons]
      exact first.trans hanswer ih

/-! ## Words -/

theorem settled_holding (word : String) (m : Machine) (items : List Value) (input : List Char) (log : List Event) :
    ∃ status log', settled word (.ok () (m.holding items input m.status log)) =
      .ok () (m.holding items input status log') := by
  obtain ⟨status, log', hsettle⟩ := Machine.settle_none (m.holding items input m.status log) word
  exact ⟨status, log', congrArg (EStateM.Result.ok ()) hsettle⟩

include hanswer in
/-- a word that succeeds, and leaves the rest of the line alone, leads to the machine that it leaves -/
theorem Leads.of_word {m : Machine} (m' : Machine) {word : String} {rest : List Char} (hword : Token.IsWord word.toList)
    (hidle : m.isCompiling = false) (hinput : m.input = word.toList ++ rest) (hrest : Token.EndsWord rest)
    (hrun : ∀ input log, runWord answer word { m with input, log } = .ok () { m' with input, log }) :
    ∃ status log, Leads answer m { m' with input := rest, status, log } := by
  have hread : Token.next m.input = (word.toList, rest.drop 1) := by rw [hinput, Token.next_word hword hrest]
  have hne : word ≠ "" := by
    rintro rfl
    exact hword.1 rfl
  obtain ⟨log, heval⟩ := evalWord_idle answer (m := { m with input := rest.drop 1 }) hne hidle
  rw [hrun] at heval
  obtain ⟨status, log', hsettle⟩ := Machine.settle_none { m' with input := rest.drop 1, log } word
  have hleads : Leads answer m { m' with input := rest.drop 1, status, log := log' } := by
    refine .word hanswer hread hword.1 ?_
    rw [String.ofList_toList]
    exact heval.trans (congrArg (EStateM.Result.ok ()) hsettle)
  refine ⟨status, log', ?_⟩
  cases rest with
  | nil => exact hleads
  | cons c rest =>
    -- the blank that ends the word is dropped with it
    have hblank := Leads.blank hanswer (m := { m' with status, log := log' }) (hrest c rest rfl) rest
    exact ⟨hleads.rest.trans hblank.rest.symm, hleads.evolves.changes.tail (.input (c :: rest)), hleads.evolves.scopes,
      hleads.evolves.callDepth, hinput ▸ List.suffix_append _ _⟩

include hanswer in
/-- a word that changes nothing but the stack -/
theorem Takes.of_word {word : String} {xs ys : List Value} (hword : Token.IsWord word.toList)
    (hrun : ∀ (m : Machine) (below : List Value), Ready m (xs ++ below) →
      runWord answer word m = .ok () { m with stack := ⟨ys ++ below, none⟩ }) : Takes answer word xs ys := by
  intro m below rest hm hinput hrest
  exact Leads.of_word hanswer { m with stack := ⟨ys ++ below, none⟩ } hword hm.idle hinput hrest
    fun input log => hrun { m with input, log } below ⟨hm.built, hm.idle, hm.stack⟩

include hanswer in
theorem takes_number {word : String} {v : Value} (hword : Token.IsWord word.toList)
    (hnumber : Token.literal word.toList = .number v) : Takes answer word [] [v] := by
  refine .of_word hanswer hword fun m below hm => ?_
  rw [runWord_number hnumber]
  exact push_unbounded v hm.stack

include hanswer in
theorem takes_integer (n : Int64) : Takes answer (Decimal.integer n.toInt) [] [.integer n] :=
  takes_number hanswer (Decimal.isWord_integer n.toInt) (Token.literal_integer_text n)

include hanswer in
/-- a native word, whose first definition that accepts the items succeeds -/
theorem takes_native {word : String} {xs ys : List Value} (d : Definition) (hword : Token.IsWord word.toList)
    (hname : Token.isNumeric word.toList = false)
    (hfirst : ∀ below, (Dictionary.nativesOf natives word).find? (·.validator.accepts ⟨xs ++ below, none⟩) = some d)
    (hrun : ∀ (m : Machine) (below : List Value), m.stack = ⟨xs ++ below, none⟩ →
      d.run answer m = .ok () { m with stack := ⟨ys ++ below, none⟩ }) : Takes answer word xs ys := by
  refine .of_word hanswer hword fun m below hm => ?_
  have hlookup : m.dictionary.lookup word m.stack = some d := by rw [hm.built.lookup_eq, hm.stack, hfirst]; rfl
  rw [runWord_lookup (Token.literal_eq_name_iff.2 hname) hlookup, hrun m below hm.stack]

include hanswer in
/-- a native word that acts on the stack alone -/
theorem takes_operator {word : String} {xs ys : List Value} (validator : Validator) (o : Operator)
    (hword : Token.IsWord word.toList) (hname : Token.isNumeric word.toList = false)
    (hfirst : ∀ below, (Dictionary.nativesOf natives word).find? (·.validator.accepts ⟨xs ++ below, none⟩) =
      some ⟨validator, .operator o, .none⟩)
    (hrun : ∀ below, o.run ⟨xs ++ below, none⟩ = .ok () ⟨ys ++ below, none⟩) : Takes answer word xs ys := by
  refine takes_native hanswer _ hword hname hfirst fun m below hstack => ?_
  change MachineM.ofEffect o.run m = _
  unfold MachineM.ofEffect
  rw [hstack, hrun]

include hanswer in
theorem takes_boolean (b : Bool) : Takes answer (if b then "<true>" else "<false>") [] [.boolean b] := by
  cases b with
  | true =>
    exact takes_native hanswer ⟨.depth 0, .core (.boolean true), .none⟩ (by decide) (by decide)
      (fun below => rfl) fun m below => push_unbounded (.boolean true)
  | false =>
    exact takes_native hanswer ⟨.depth 0, .core (.boolean false), .none⟩ (by decide) (by decide)
      (fun below => rfl) fun m below => push_unbounded (.boolean false)

include hanswer in
theorem takes_fraction (num den : Int64) :
    Takes answer "->FRAC" [.integer den, .integer num] [.fraction (Fraction.make num den)] :=
  takes_operator hanswer _ (.fraction .make) (by decide) (by decide) (fun _ => rfl) fun _ => rfl

include hanswer in
theorem takes_timecode {frames : Int64} {rate : Fraction} {t : Timecode} (h : Timecode.ofFrames frames rate = some t) :
    Takes answer "->TC" [.integer frames, .fraction rate] [.timecode t] := by
  refine takes_operator hanswer _ (.timecode .ofFrames) (by decide) (by decide) (fun _ => rfl)
    fun below => ?_
  change TimecodeWord.pushOr rate (Timecode.ofFrames frames rate) ⟨below, none⟩ = _
  rw [h]
  rfl

include hanswer in
theorem takes_object (key : String) (v : Value) :
    Takes answer "->OBJECT" [.string key, v] [.map [(key, v)]] :=
  takes_operator hanswer _ (.map .make) (by decide) (by decide) (fun _ => rfl) fun _ => rfl

include hanswer in
theorem takes_insert (key : String) (v : Value) (entries : List (String × Value)) :
    Takes answer "+" [.string key, v, .map entries] [.map (Keyed.insert key v entries)] :=
  takes_operator hanswer _ (.map .insertAbove) (by decide) (by decide) (fun _ => rfl) fun _ => rfl

include hanswer in
/-- the number of items on top of the items, the last of them uppermost -/
theorem takes_list {items : List Value} {n : Int64} (hn : n.toInt = items.length) :
    Takes answer "->ARRAY" (.integer n :: items.reverse) [.list items] := by
  have hcount : n.toInt.toNat = items.reverse.length := by rw [hn, List.length_reverse]; rfl
  refine takes_operator hanswer .countOnTop (.list .make) (by decide) (by decide) (fun below => ?_)
    fun below => ?_
  · have hnative : Dictionary.nativesOf natives "->ARRAY" = [⟨.countOnTop, .operator (.list .make), .none⟩] := rfl
    have haccepts : Validator.countOnTop.accepts ⟨.integer n :: (items.reverse ++ below), none⟩ = true := by
      refine decide_eq_true ⟨by omega, ?_⟩
      rw [hcount, List.length_append]
      omega
    rw [hnative]
    exact List.find?_cons_of_pos haccepts
  · have hnonneg : ¬ n < 0 := by
      rw [Int64.lt_iff_toInt_lt]
      simp [hn]
    change EStateM.bind Effect.popCount _ _ = _
    unfold EStateM.bind
    rw [List.cons_append, Effect.popCount_ok hnonneg]
    change EStateM.bind (Effect.ofStack (Stack.popN n.toInt.toNat)) _ _ = _
    unfold EStateM.bind Effect.ofStack
    rw [Stack.popN_ok (by rw [hcount, List.length_append]; omega), hcount, List.take_left, List.drop_left,
      List.reverse_reverse]
    rfl

include hanswer in
theorem takes_array {items : List Value} (hlength : items.length < 0x8000000000000000) :
    Takes answer (Decimal.integer items.length ++ " ->ARRAY") items.reverse [.list items] := by
  have hn : (Int64.ofInt items.length).toInt = items.length := Int64.toInt_ofInt_of_le (by omega) (by omega)
  have hpush := (takes_integer hanswer (Int64.ofInt items.length)).frame items.reverse
  rw [hn] at hpush
  exact hpush.followed hanswer (takes_list hanswer hn) rfl

include hanswer in
theorem takes_quoted {s text : String} (h : quoted? s = some text) : Takes answer text [] [.string s] := by
  unfold quoted? at h
  split at h
  · cases h
  · rename_i hquote
    cases h
    intro m below rest hm hinput hrest
    have hlayout : m.input = stringWord.toList ++ ' ' :: (s.toList ++ '"' :: rest) := by
      rw [hinput]
      simp [stringWord]
    have hread := Token.next_word (w := stringWord.toList) (by decide)
      (Token.endsWord_space (s.toList ++ '"' :: rest))
    have htext : Token.takeUntil '"' (s.toList ++ '"' :: rest) = some (s.toList, rest) :=
      Token.takeUntil_eq_some_iff.2 ⟨rfl, by simpa using hquote⟩
    obtain ⟨log, heval⟩ :=
      evalWord_string answer (m := { m with input := s.toList ++ '"' :: rest }) hm.built hm.idle htext
    have hpush := push_unbounded (m := { m with input := rest, log }) (.string s) hm.stack
    obtain ⟨status, log', hsettled⟩ := settled_holding stringWord m (.string s :: below) rest log
    refine ⟨status, log', .word hanswer (hlayout ▸ hread) (by decide) ?_⟩
    rw [String.ofList_toList] at heval ⊢
    exact heval.trans ((congrArg (settled stringWord) hpush).trans hsettled)

end Takes

/-! ## Values that their source rebuilds -/

/-- the values that are made of booleans, integers, texts, fractions, labels of frame counts, lists and maps. No memory
holds a list of 2^63 items. -/
inductive Value.Storable : Value → Prop
  | boolean (b : Bool) : Storable (.boolean b)
  | integer (n : Int64) : Storable (.integer n)
  | string (s : String) : Storable (.string s)
  | fraction (q : Fraction) : Storable (.fraction q)
  | timecode {frames : Int64} {rate : Fraction} {t : Timecode} (h : Timecode.ofFrames frames rate = some t) :
    Storable (.timecode t)
  | list {items : List Value} (hlength : items.length < 0x8000000000000000) (h : ∀ v ∈ items, Storable v) :
    Storable (.list items)
  | map {entries : List (String × Value)} (hsorted : Keyed.Sorted entries) (h : ∀ e ∈ entries, Storable e.2) :
    Storable (.map entries)

/-- somewhere in the value there is a text or a key with a quote, or an empty map -/
inductive Value.Unsourced : Value → Prop
  | string {s : String} (h : '"' ∈ s.toList) : Unsourced (.string s)
  | emptyMap : Unsourced (.map [])
  | key {entries : List (String × Value)} {e : String × Value} (hmem : e ∈ entries) (h : '"' ∈ e.1.toList) :
    Unsourced (.map entries)
  | item {items : List Value} {v : Value} (hmem : v ∈ items) (h : Unsourced v) : Unsourced (.list items)
  | entry {entries : List (String × Value)} {e : String × Value} (hmem : e ∈ entries) (h : Unsourced e.2) :
    Unsourced (.map entries)

theorem quoted?_eq_none_iff {s : String} : quoted? s = none ↔ '"' ∈ s.toList := by
  unfold quoted?
  split <;> simp_all

/-! ## The source pushes the value -/

section Source

variable (hanswer : ∀ r, Evolving (answer r))

include hanswer in
theorem takes_fractionSource (q : Fraction) : Takes answer q.source [] [.fraction q] := by
  have hnum := takes_integer hanswer q.num
  have hden := (takes_integer hanswer q.den).frame [.integer q.num]
  have hmake := takes_fraction hanswer q.num q.den
  rw [q.make_parts] at hmake
  exact (hnum.trans hanswer hden).followed hanswer hmake rfl

include hanswer in
theorem takes_timecodeSource {frames : Int64} {rate : Fraction} {t : Timecode}
    (h : Timecode.ofFrames frames rate = some t) : Takes answer t.source [] [.timecode t] := by
  have hpush := (takes_integer hanswer t.toFrames).frame [.fraction t.rate]
  have hmake := takes_timecode hanswer (Timecode.ofFrames_toFrames h)
  exact ((takes_fractionSource hanswer t.rate).trans hanswer hpush).followed hanswer hmake rfl

theorem itemSources?_cons {v : Value} {items : List Value} {texts : List String}
    (h : Value.itemSources? (v :: items) = some texts) :
    ∃ text more, v.source? = some text ∧ Value.itemSources? items = some more ∧ texts = text :: more := by
  unfold Value.itemSources? at h
  split at h
  · rename_i text more hv hrest
    cases h
    exact ⟨text, more, hv, hrest, rfl⟩
  · cases h

/-- the sources of the items push one item after the other -/
theorem chain_items {items : List Value} {texts : List String} (h : Value.itemSources? items = some texts)
    (hitems : ∀ v ∈ items, ∀ text, v.source? = some text → Takes answer text [] [v]) (xs : List Value) :
    Chain answer texts xs (items.reverse ++ xs) := by
  induction items generalizing texts xs with
  | nil =>
    cases h
    exact .nil xs
  | cons v items ih =>
    obtain ⟨text, more, hv, hmore, rfl⟩ := itemSources?_cons h
    rw [List.reverse_cons, List.append_assoc]
    exact .cons ((hitems v (by simp) text hv).frame xs)
      (ih hmore (fun w hw => hitems w (List.mem_cons_of_mem _ hw)) (v :: xs))

theorem entrySources?_cons {joiner : String} {e : String × Value} {entries : List (String × Value)}
    {texts : List String} (h : Value.entrySources? joiner (e :: entries) = some texts) :
    ∃ name text more, quoted? e.1 = some name ∧ e.2.source? = some text ∧
      Value.entrySources? "+" entries = some more ∧ texts = (text ++ " " ++ name ++ " " ++ joiner) :: more := by
  obtain ⟨key, v⟩ := e
  unfold Value.entrySources? at h
  split at h
  · rename_i name text more hname hv hrest
    cases h
    exact ⟨name, text, more, hname, hv, hrest, rfl⟩
  · cases h

include hanswer in
/-- a value and its key, and the word that joins them to a map -/
theorem takes_entry {e : String × Value} {name text joiner : String} {xs ys : List Value}
    (hname : quoted? e.1 = some name) (hvalue : Takes answer text [] [e.2])
    (hjoin : Takes answer joiner (.string e.1 :: e.2 :: xs) ys) :
    Takes answer (text ++ " " ++ name ++ " " ++ joiner) xs ys :=
  ((hvalue.frame xs).trans hanswer ((takes_quoted hanswer hname).frame (e.2 :: xs))).trans hanswer hjoin

include hanswer in
/-- the sources of further entries add them to the map, each behind those that it has -/
theorem chain_entries {entries : List (String × Value)} {texts : List String}
    (h : Value.entrySources? "+" entries = some texts)
    (hentries : ∀ e ∈ entries, ∀ text, e.2.source? = some text → Takes answer text [] [e.2])
    (before : List (String × Value)) (hsorted : Keyed.Sorted (before ++ entries)) :
    Chain answer texts [.map before] [.map (before ++ entries)] := by
  induction entries generalizing texts before with
  | nil =>
    cases h
    rw [List.append_nil]
    exact .nil _
  | cons e entries ih =>
    obtain ⟨name, text, more, hname, hv, hmore, rfl⟩ := entrySources?_cons h
    have hbefore : ∀ e' ∈ before, e'.1 < e.1 := fun e' he' => (List.pairwise_append.1 hsorted).2.2 e' he' e (by simp)
    have hjoin := takes_insert hanswer e.1 e.2 before
    rw [Keyed.insert_last e.2 hbefore] at hjoin
    rw [List.append_cons] at hsorted ⊢
    exact .cons (takes_entry hanswer hname (hentries e (by simp) text hv) hjoin)
      (ih hmore (fun e' he' => hentries e' (List.mem_cons_of_mem _ he')) _ hsorted)

include hanswer in
/-- **Sources rebuild.** The source of a storable value pushes exactly this value. -/
theorem Value.Storable.takes_source {v : Value} (hv : v.Storable) :
    ∀ text, v.source? = some text → Takes answer text [] [v] := by
  induction hv with
  | boolean b =>
    intro text h
    rw [Value.source?, Option.some_inj] at h
    exact h ▸ takes_boolean hanswer b
  | integer n =>
    intro text h
    rw [Value.source?, Option.some_inj] at h
    exact h ▸ takes_integer hanswer n
  | string s =>
    intro text h
    rw [Value.source?] at h
    exact takes_quoted hanswer h
  | fraction q =>
    intro text h
    rw [Value.source?, Option.some_inj] at h
    exact h ▸ takes_fractionSource hanswer q
  | timecode ht =>
    intro text h
    rw [Value.source?, Option.some_inj] at h
    exact h ▸ takes_timecodeSource hanswer ht
  | @list items hlength _ ih =>
    intro text h
    rw [Value.source?, Option.map_eq_some_iff] at h
    obtain ⟨texts, htexts, rfl⟩ := h
    have hitems := chain_items htexts ih []
    rw [List.append_nil] at hitems
    exact (hitems.append (.cons (takes_array hanswer hlength) (.nil _))).takes hanswer
  | @map entries hsorted _ ih =>
    intro text h
    cases entries with
    | nil => simp [Value.source?, Value.entrySources?] at h
    | cons e entries =>
      unfold Value.source? at h
      split at h
      · cases h
      · cases h
      · rename_i texts _ htexts
        cases h
        obtain ⟨name, text, more, hname, hsource, hmore, rfl⟩ := entrySources?_cons htexts
        have hfirst : Takes answer (text ++ " " ++ name ++ " " ++ "->OBJECT") [] [.map [e]] :=
          takes_entry hanswer hname (ih e (by simp) text hsource) (takes_object hanswer e.1 e.2)
        have hothers := chain_entries hanswer hmore (fun e' he' => ih e' (List.mem_cons_of_mem _ he')) [e] hsorted
        exact (Chain.cons hfirst hothers).takes hanswer

end Source

/-! ## Values without a source -/

theorem itemSources?_eq_none_iff {items : List Value} :
    Value.itemSources? items = none ↔ ∃ v ∈ items, v.source? = none := by
  induction items with
  | nil => simp [Value.itemSources?]
  | cons v items ih =>
    rw [List.exists_mem_cons_iff, ← ih]
    rw [Value.itemSources?]
    cases v.source? <;> cases Value.itemSources? items <;> simp

theorem entrySources?_eq_none_iff {joiner : String} {entries : List (String × Value)} :
    Value.entrySources? joiner entries = none ↔ ∃ e ∈ entries, quoted? e.1 = none ∨ e.2.source? = none := by
  induction entries generalizing joiner with
  | nil => simp [Value.entrySources?]
  | cons e entries ih =>
    rw [List.exists_mem_cons_iff, ← @ih "+"]
    rw [Value.entrySources?]
    cases quoted? e.1 <;> cases e.2.source? <;> cases Value.entrySources? "+" entries <;> simp

theorem source?_list_eq_none_iff {items : List Value} :
    (Value.list items).source? = none ↔ ∃ v ∈ items, v.source? = none := by
  rw [Value.source?, Option.map_eq_none_iff, itemSources?_eq_none_iff]

theorem source?_map_eq_none_iff {entries : List (String × Value)} :
    (Value.map entries).source? = none ↔
      entries = [] ∨ ∃ e ∈ entries, '"' ∈ e.1.toList ∨ e.2.source? = none := by
  simp only [← quoted?_eq_none_iff]
  rw [← @entrySources?_eq_none_iff "->OBJECT"]
  cases entries with
  | nil => simp [Value.source?, Value.entrySources?]
  | cons e entries =>
    unfold Value.source?
    cases h : Value.entrySources? "->OBJECT" (e :: entries) with
    | none => simp
    | some texts =>
      obtain ⟨name, text, more, -, -, -, rfl⟩ := entrySources?_cons h
      simp

theorem unsourced_list_iff {items : List Value} : (Value.list items).Unsourced ↔ ∃ v ∈ items, v.Unsourced := by
  constructor
  · rintro (_ | _ | _ | ⟨hmem, h⟩)
    exact ⟨_, hmem, h⟩
  · rintro ⟨v, hmem, h⟩
    exact .item hmem h

theorem unsourced_map_iff {entries : List (String × Value)} :
    (Value.map entries).Unsourced ↔ entries = [] ∨ ∃ e ∈ entries, '"' ∈ e.1.toList ∨ e.2.Unsourced := by
  constructor
  · intro h
    cases h with
    | emptyMap => exact .inl rfl
    | key hmem h => exact .inr ⟨_, hmem, .inl h⟩
    | entry hmem h => exact .inr ⟨_, hmem, .inr h⟩
  · rintro (rfl | ⟨e, hmem, h | h⟩)
    · exact .emptyMap
    · exact .key hmem h
    · exact .entry hmem h

/-- **Values without a source.** A storable value has no source exactly if a text or a key in it has a quote, or a map
in it is empty. -/
theorem Value.Storable.source?_eq_none_iff {v : Value} (hv : v.Storable) : v.source? = none ↔ v.Unsourced := by
  induction hv with
  | string s =>
    refine quoted?_eq_none_iff.trans ⟨.string, fun h => ?_⟩
    cases h
    assumption
  | list _ _ ih =>
    rw [source?_list_eq_none_iff, unsourced_list_iff]
    exact exists_congr fun v => and_congr_right (ih v)
  | map _ _ ih =>
    rw [source?_map_eq_none_iff, unsourced_map_iff]
    exact or_congr_right (exists_congr fun e => and_congr_right fun he => or_congr_right (ih e he))
  | _ => exact ⟨nofun, nofun⟩

/-! ## A line of a session -/

/-- a line that leads to its end is evaluated to the machine there, which returns to the line before -/
theorem Leads.eval {text : String} {m : Machine} (m' : Machine)
    (h : Leads (answerUpTo m.allowance) { m with input := text.toList } { m' with input := [] }) :
    Machine.eval text m = .ok () { m' with input := m.input } := by
  unfold Machine.eval
  rw [evalLine_eq (answerUpTo_evolves m.allowance), h.rest, evalRest_end (by rfl)]
  rfl

/-- what a text does to the items on top, done by a line of a session whose stack has no limit -/
theorem Takes.eval {text : String} {m : Machine} {xs ys below : List Value}
    (h : Takes (answerUpTo m.allowance) text xs ys) (hm : Reachable m) (hidle : m.isCompiling = false)
    (hstack : m.stack = ⟨xs ++ below, none⟩) :
    ∃ status log, Machine.eval text m = .ok () { m with stack := ⟨ys ++ below, none⟩, status, log } := by
  have hready : Ready { m with input := text.toList } (xs ++ below) := ⟨hm.built, hidle, hstack⟩
  obtain ⟨status, log, hleads⟩ := h { m with input := text.toList } below [] hready (by simp) Token.endsWord_nil
  exact ⟨status, log, Leads.eval { m with stack := ⟨ys ++ below, none⟩, status, log } hleads⟩

/-- **Sources evaluate back.** In a session whose stack has no limit, and outside a compilation, the source
of a storable value is a line that succeeds and pushes exactly this value on the stack, whatever stands there; and the
value has a source unless a text or a key in it has a quote, or a map in it is empty. -/
theorem eval_source {m : Machine} (hm : Reachable m) (hidle : m.isCompiling = false) (hlimit : m.stack.limit = none)
    {v : Value} (hv : v.Storable) :
    (∀ text, v.source? = some text → ∃ status log, Machine.eval text m =
      .ok () { m with stack := { m.stack with items := v :: m.stack.items }, status, log }) ∧
    (v.source? = none ↔ v.Unsourced) := by
  refine ⟨fun text htext => ?_, hv.source?_eq_none_iff⟩
  have hstack (items : List Value) : { m.stack with items } = (⟨items, none⟩ : Stack) := by rw [← hlimit]
  obtain ⟨status, log, hres⟩ := (hv.takes_source (answerUpTo_evolves m.allowance) text htext).eval hm hidle
    (hstack m.stack.items)
  refine ⟨status, log, hres.trans ?_⟩
  rw [hstack]
  rfl

/-- containers inside containers, a zero denominator and a label behind dropped ones -/
def nestedValue : Value :=
  .map [("at", .timecode ⟨0, 1, 0, 2, .mk 30000 1001⟩),
    ("of", .list [.map [("ratio", .fraction (.mk 1 0))], .string "a b", .boolean true,
      .integer (-9223372036854775808)])]

theorem storable_nestedValue : nestedValue.Storable := by
  have hmade : Timecode.ofFrames 1800 (.mk 30000 1001) = some ⟨0, 1, 0, 2, .mk 30000 1001⟩ := rfl
  have hinfinite : Value.Storable (.fraction (.mk 1 0)) := .fraction _
  refine .map (by unfold Keyed.Sorted; decide) ?_
  simp only [List.forall_mem_cons, List.not_mem_nil, false_imp_iff, implies_true, and_true]
  refine ⟨.timecode hmade, .list (by decide) ?_⟩
  simp only [List.forall_mem_cons, List.not_mem_nil, false_imp_iff, implies_true, and_true]
  refine ⟨.map (by unfold Keyed.Sorted; decide) ?_, .string _, .boolean _, .integer _⟩
  simpa using hinfinite

/-- a nested value comes back on a fresh session -/
theorem eval_source_nested : ∃ m, Reachable m ∧ m.isCompiling = false ∧ m.stack.limit = none ∧ nestedValue.Storable ∧
    (∃ text status log, nestedValue.source? = some text ∧
      Machine.eval text m =
        .ok () { m with stack := { m.stack with items := nestedValue :: m.stack.items }, status, log }) ∧
    ¬ nestedValue.Unsourced := by
  obtain ⟨m, hm, hidle, hstack⟩ := reachable_fresh
  have hlimit : m.stack.limit = none := by rw [hstack]
  obtain ⟨hline, hnone⟩ := eval_source hm hidle hlimit storable_nestedValue
  have hsource : nestedValue.source? = some
      ("30000 1001 ->FRAC 1800 ->TC .\" at\" ->OBJECT 1 0 ->FRAC .\" ratio\" ->OBJECT .\" a b\" <true> " ++
        "-9223372036854775808 4 ->ARRAY .\" of\" +") := by
    decide +kernel
  obtain ⟨status, log, heval⟩ := hline _ hsource
  refine ⟨m, hm, hidle, hlimit, storable_nestedValue, ⟨_, status, log, hsource, heval⟩, fun h => ?_⟩
  rw [hnone.2 h] at hsource
  exact Option.some_ne_none _ hsource.symm

end ReversePolish
