/-
Taking a value apart and building it again.

`OBJ->` puts the parts of a value in its place (`takes_parts`). For each kind of value there is a word that builds one
of its parts: `->ARRAY`, `->FRAC`, `->VEC3` and `->TC`. Where the parts are those of a value, nothing is left to shorten
or to carry, so the word gives the value back, whatever stands below (`takes_rebuild`). `Rebuilt` are the values and
their words, and `Unmoved` the lines that leave a machine as it is. Result:
- `explode_rebuild`: taken apart and built again, a value is itself, and so are items that are put in a list and taken
  out of it.
-/
import ReversePolish.Proofs.Timecode.Fields
import ReversePolish.Proofs.Word.Spend

namespace ReversePolish

/-! ## Words on parts -/

/-- a value that the word builds of its parts. No memory holds a list of 2^63 items, and timecodes are at an accepted
rate. -/
inductive Value.Rebuilt : String → Value → Prop
  | list {items : List Value} (hlength : items.length < 0x8000000000000000) : Rebuilt "->ARRAY" (.list items)
  | fraction (q : Fraction) : Rebuilt "->FRAC" (.fraction q)
  | vec3 (v : Vec3) : Rebuilt "->VEC3" (.vec3 v)
  | timecode {t : Timecode} {c : Timecode.Counts} (hrate : Timecode.counts? t.rate = some c)
    (hrange : Timecode.InRange c t) : Rebuilt "->TC" (.timecode t)

theorem Value.Rebuilt.exists_parts {word : String} {v : Value} (h : v.Rebuilt word) :
    ∃ parts, v.parts? = some parts := by
  cases h with
  | _ => exact ⟨_, rfl⟩

section Takes

variable {answer : Answer} (hanswer : ∀ r, Evolving (answer r))

include hanswer in
/-- the parts of a value take its place, the last one uppermost -/
theorem takes_parts {v : Value} {parts : List Value} (hparts : v.parts? = some parts) :
    Takes answer "OBJ->" [v] parts.reverse := by
  obtain ⟨o, ho⟩ := Operator.exists_exploding hparts
  have hword : "OBJ->" ∈ explodingWords v.kind := by
    cases v with
    | list _ | map _ | vec3 _ | fraction _ | timecode _ => simp [explodingWords, Value.kind]
    | _ => cases hparts
  refine takes_operator hanswer _ o (by decide) (by decide) (fun below => exploding_native ho hword below none) ?_
  intro below
  have hroom : Stack.Fits ⟨below, none⟩ parts.length := by
    intro l hl
    cases hl
  rw [List.singleton_append, Operator.exploding_run hparts ho, Effect.pushAll_fits hroom]

include hanswer in
theorem takes_vector (v : Vec3) : Takes answer "->VEC3" [.double v.z, .double v.y, .double v.x] [.vec3 v] :=
  takes_operator hanswer _ (.vector .make) (by decide) (by decide) (fun _ => rfl) fun _ => rfl

include hanswer in
/-- four counts over a rate: the definition for a single count does not accept them -/
theorem takes_fields {hour minute second frame : Int64} {rate : Fraction} {t : Timecode}
    (h : Timecode.ofFields hour minute second frame rate = some t) :
    Takes answer "->TC" [.integer frame, .integer second, .integer minute, .integer hour, .fraction rate]
      [.timecode t] := by
  refine takes_operator hanswer _ (.timecode .ofFields) (by decide) (by decide) (fun _ => rfl) fun below => ?_
  change TimecodeWord.pushOr rate (Timecode.ofFields hour minute second frame rate) ⟨below, none⟩ = _
  rw [h]
  rfl

/-- the number of items of a list, which a 64-bit integer holds -/
theorem Effect.count_eq_integer {items : List Value} {n : Int64} (hn : n.toInt = items.length) :
    count items.length = .integer n := by
  unfold count
  rw [← Int64.ofInt_toInt n, hn]
  rfl

include hanswer in
/-- the word gives the value back from its parts -/
theorem takes_rebuild {word : String} {v : Value} (hv : v.Rebuilt word) {parts : List Value}
    (hparts : v.parts? = some parts) : Takes answer word parts.reverse [v] := by
  cases hv with
  | @list items hlength =>
    cases hparts
    have hn : (Int64.ofInt items.length).toInt = items.length := Int64.toInt_ofInt_of_le (by omega) (by omega)
    rw [List.reverse_append, Effect.count_eq_integer hn]
    exact takes_list hanswer hn
  | fraction q =>
    cases hparts
    have hmake := takes_fraction hanswer q.num q.den
    rwa [q.make_parts] at hmake
  | vec3 v =>
    cases hparts
    exact takes_vector hanswer v
  | @timecode t c hrate hrange =>
    cases hparts
    exact takes_fields hanswer (Timecode.ofFields_of_inRange hrate hrange)

end Takes

/-! ## Lines of a session -/

/-- the line succeeds and leaves the machine as it is, but for the status and the log -/
def Machine.Unmoved (m : Machine) (line : String) : Prop :=
  ∃ status log, Machine.eval line m = .ok () { m with status, log }

/-- a text that gives the items on top back -/
theorem Takes.unmoved {text : String} {m : Machine} {xs below : List Value}
    (h : Takes (answerUpTo m.allowance) text xs xs) (hm : Reachable m) (hidle : m.isCompiling = false)
    (hstack : m.stack = ⟨xs ++ below, none⟩) : m.Unmoved text := by
  obtain ⟨status, log, heval⟩ := h.eval hm hidle hstack
  rw [← hstack] at heval
  exact ⟨status, log, heval⟩

/-- **Taking apart and building again are inverse.** In a session whose stack has no limit, and outside a compilation,
let a value be on top of any items. `OBJ->` puts its parts in its place, in their order. Followed by the word that
builds lists, fractions, vectors or timecodes, it gives the very same value back and leaves the items below alone: every
list, every fraction, every vector, and every timecode with its fields in range. Conversely any n items below the
integer n make a list, which `OBJ->` takes apart to these items and the integer. -/
theorem explode_rebuild {m : Machine} (hm : Reachable m) (hidle : m.isCompiling = false) {below : List Value} :
    (∀ {v : Value} {parts : List Value}, v.parts? = some parts → m.stack = ⟨v :: below, none⟩ →
      ∃ status log, Machine.eval "OBJ->" m = .ok ()
        { m with stack := ⟨parts.reverse ++ below, none⟩, status, log }) ∧
    (∀ {word : String} {v : Value}, v.Rebuilt word → m.stack = ⟨v :: below, none⟩ → m.Unmoved ("OBJ-> " ++ word)) ∧
    ∀ {items : List Value} {n : Int64}, n.toInt = items.length →
      m.stack = ⟨.integer n :: (items.reverse ++ below), none⟩ →
        (∃ status log, Machine.eval "->ARRAY" m = .ok ()
          { m with stack := ⟨.list items :: below, none⟩, status, log }) ∧
          m.Unmoved "->ARRAY OBJ->" := by
  have hanswer := answerUpTo_evolves m.allowance
  refine ⟨?_, ?_, ?_⟩
  · intro v parts hparts hstack
    exact (takes_parts hanswer hparts).eval hm hidle hstack
  · intro word v hv hstack
    obtain ⟨parts, hparts⟩ := hv.exists_parts
    have hboth := (takes_parts hanswer hparts).trans hanswer (takes_rebuild hanswer hv hparts)
    exact hboth.unmoved hm hidle hstack
  · intro items n hn hstack
    have hlist := takes_list hanswer hn
    have hparts : (Value.list items).parts? = some (items ++ [.integer n]) := by
      rw [← Effect.count_eq_integer hn]
      rfl
    have hback := takes_parts hanswer hparts
    rw [List.reverse_append] at hback
    exact ⟨hlist.eval hm hidle hstack, (hlist.trans hanswer hback).unmoved hm hidle hstack⟩

/-- a timecode, whose label is a dropped one, over a count and a rate, and the number of the two items below it -/
theorem explode_rebuild_dropped :
    (Value.timecode ⟨0, 1, 0, 0, .mk 30000 1001⟩).Rebuilt "->TC" ∧
    ∃ m m' : Machine, Reachable m ∧ m.isCompiling = false ∧ Reachable m' ∧ m'.isCompiling = false ∧
      m.stack = ⟨[.timecode ⟨0, 1, 0, 0, .mk 30000 1001⟩, .integer 7, .fraction (.ofInteger 24)], none⟩ ∧
      m.Unmoved "OBJ-> ->TC" ∧
      m'.stack = ⟨[.integer 2, .integer 7, .fraction (.ofInteger 24), .list []], none⟩ ∧
      (∃ status log, Machine.eval "->ARRAY" m' = .ok ()
        { m' with stack := ⟨[.list [.fraction (.ofInteger 24), .integer 7], .list []], none⟩, status, log }) ∧
      m'.Unmoved "->ARRAY OBJ->" := by
  have hrebuilt : (Value.timecode ⟨0, 1, 0, 0, .mk 30000 1001⟩).Rebuilt "->TC" := by
    have haccepted : Timecode.counts? (.mk 30000 1001) = some ⟨30, 2⟩ := rfl
    exact .timecode haccepted ⟨by decide, by decide, by decide, by decide⟩
  obtain ⟨m, hm, hidle, -⟩ := reachable_fresh
  have hm₁ := hm.host ⟨[.timecode ⟨0, 1, 0, 0, .mk 30000 1001⟩, .integer 7, .fraction (.ofInteger 24)], none⟩ m.tracing
    m.maxCallDepth
  have hm₂ := hm.host ⟨[.integer 2, .integer 7, .fraction (.ofInteger 24), .list []], none⟩ m.tracing m.maxCallDepth
  obtain ⟨-, hback, -⟩ := @explode_rebuild _ hm₁ hidle [.integer 7, .fraction (.ofInteger 24)]
  obtain ⟨-, -, hlist⟩ := @explode_rebuild _ hm₂ hidle [.list []]
  obtain ⟨hmade, hkept⟩ := @hlist [.fraction (.ofInteger 24), .integer 7] 2 rfl rfl
  have hmoved := hback hrebuilt rfl
  refine ⟨hrebuilt, _, _, hm₁, hidle, hm₂, hidle, rfl, ?_, rfl, ?_, ?_⟩
  · exact hmoved
  · exact hmade
  · exact hkept

end ReversePolish
