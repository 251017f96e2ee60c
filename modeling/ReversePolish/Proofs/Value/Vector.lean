/-
The source of a vector keeps its finite components.

A vector is written as its three components, or as a sum of vectors on single axes, one for every component that has a
literal. Only finite doubles have one, but unset components are NaN: an infinite component is left out like an unset
one, and comes back unset. `finitePart` is what comes back. Results:
- `isWord_of_double`: a text that is read as a double is a single word;
- `takes_places`: the sum puts one component after the other on its axis;
- `takes_vectorSource`: the source of a vector pushes its finite part;
- `vector_source_keeps_finite`: the same for a line of a session, and the vectors for which it is the vector itself;
- `infinite_component_lost`: a vector that does not come back.
-/
import ReversePolish.Proofs.Number.Double
import ReversePolish.Proofs.Token.Literal
import ReversePolish.Proofs.Word.Rebuild

namespace ReversePolish

/-! ## Literals of doubles -/

namespace Reading

/-- there is no blank in the text -/
def Solid (s : List Char) : Prop := ∀ c ∈ s, Text.isBlank c = false

theorem isBlank_of_isDigit {c : Char} (h : c.isDigit = true) : Text.isBlank c = false := by
  rw [← Bool.not_eq_true]
  intro hblank
  simp only [Text.isBlank, Bool.or_eq_true, beq_iff_eq] at hblank
  rcases hblank with (((rfl | rfl) | rfl) | rfl) | rfl <;> exact absurd h (by decide)

theorem Solid.cons {c : Char} {s : List Char} (hc : Text.isBlank c = false) (hs : Solid s) : Solid (c :: s) :=
  List.forall_mem_cons.2 ⟨hc, hs⟩

theorem solid_of_sign {s : List Char} (h : Solid (sign s).2) : Solid s := by
  unfold sign at h
  split at h
  · exact h.cons (by decide)
  · exact h.cons (by decide)
  · exact h

theorem solid_of_dropWhile {s : List Char} (h : Solid (s.dropWhile Char.isDigit)) : Solid s := by
  intro c hc
  rw [← List.takeWhile_append_dropWhile (p := Char.isDigit) (l := s)] at hc
  rcases List.mem_append.1 hc with hc | hc
  · exact isBlank_of_isDigit (List.mem_takeWhile_imp hc)
  · exact h c hc

theorem solid_of_natural? {s : List Char} {n : Nat} (h : natural? 10 s = some n) : Solid s := by
  intro c hc
  obtain ⟨d, hd⟩ := ((natural?_eq_some_iff (by decide)).1 h).digit hc
  exact isBlank_of_isDigit (Token.isDigit_of_digitOf hd)

theorem solid_of_exponent? {s : List Char} {e : Int} (h : exponent? s = some e) : Solid s := by
  cases s with
  | nil => exact fun c hc => absurd hc List.not_mem_nil
  | cons c s =>
    rw [exponent?] at h
    split at h
    · rename_i hc
      have hs : Solid s := by
        apply solid_of_sign
        generalize sign s = parts at h ⊢
        obtain ⟨negative, ds⟩ := parts
        dsimp only at h
        cases hn : natural? 10 ds with
        | none =>
          rw [hn] at h
          cases h
        | some n => exact solid_of_natural? hn
      rcases hc with rfl | rfl <;> exact hs.cons (by decide)
    · cases h

/-- a decimal: the sign, the digits, the point and the exponent are no blanks -/
theorem solid_of_double? {s : List Char} {x : Float} (h : double? s = some x) : Solid s := by
  apply solid_of_sign
  apply solid_of_dropWhile
  unfold double? at h
  dsimp only at h
  split at h
  · rename_i m e hm he
    split at he
    · rename_i r hr
      rw [hr]
      exact (solid_of_dropWhile (solid_of_exponent? he)).cons (by decide)
    · exact solid_of_exponent? he
  · cases h

end Reading

theorem Token.isWord_of_double {w : List Char} {x : Float} (h : literal w = .number (.double x)) : IsWord w := by
  unfold literal at h
  split at h
  · cases h
  · rename_i hnumeric
    have hne : w ≠ [] := by
      rintro rfl
      exact hnumeric rfl
    split at h
    · split at h
      · rename_i y hy
        exact ⟨hne, Reading.solid_of_double? hy⟩
      · cases h
    · split at h
      · split at h <;> cases h
      · cases h

namespace Decimal

theorem literal?_eq_none_iff {x : Float} : literal? x = none ↔ x.isFinite = false := by
  constructor
  · intro h
    rw [literal?] at h
    split at h
    · rename_i hinfinite
      simpa using hinfinite
    · split at h
      · cases h
      · extract_lets s at h
        clear_value s
        split at h
        · split at h
          cases h
        · cases h
  · intro h
    rw [literal?, h]
    exact if_pos rfl

theorem isFinite_of_literal? {x : Float} {text : String} (h : literal? x = some text) : x.isFinite = true := by
  rw [← Bool.not_eq_false, ← literal?_eq_none_iff, h]
  exact Option.some_ne_none text

/-- the literal of the double, if it has one, is read as this very double -/
def ReadsBack (x : Float) : Prop := ∀ text, literal? x = some text → Token.literal text.toList = .number (.double x)

theorem ReadsBack.of_text {x : Float} (text : String) (htext : literal? x = some text)
    (hnumber : Token.literal text.toList = .number (.double x)) : ReadsBack x := by
  intro text' htext'
  rw [← Option.some.inj (htext.symm.trans htext')]
  exact hnumber

theorem ReadsBack.of_not_finite {x : Float} (hx : x.isFinite = false) : ReadsBack x := by
  intro text htext
  rw [literal?_eq_none_iff.2 hx] at htext
  cases htext

end Decimal

/-! ## Vectors on single axes -/

namespace Vec3

/-- the vector without its infinite components -/
def finitePart (v : Vec3) : Vec3 := v.map fun c => if c.isFinite then c else Double.nan

/-- the components with their axes -/
def axes (v : Vec3) : List (Axis × Float) := [(.x, v.x), (.y, v.y), (.z, v.z)]

/-- the component is added on its axis if it is finite -/
def place (w : Vec3) (p : Axis × Float) : Vec3 := if p.2.isFinite then w.add (onAxis p.1 p.2) else w

/-- the text of one summand -/
def summand? (p : Axis × Float) : Option String := (Decimal.literal? p.2).map fun text => text ++ " " ++ p.1.word

theorem summand?_eq_none_iff {p : Axis × Float} : summand? p = none ↔ p.2.isFinite = false := by
  rw [summand?, Option.map_eq_none_iff, Decimal.literal?_eq_none_iff]

theorem isFinite_of_summand? {p : Axis × Float} {text : String} (h : summand? p = some text) :
    p.2.isFinite = true := by
  obtain ⟨number, hnumber, -⟩ := Option.map_eq_some_iff.1 h
  exact Decimal.isFinite_of_literal? hnumber

theorem place_of_summand? (w : Vec3) {p : Axis × Float} {text : String} (h : summand? p = some text) :
    w.place p = w.add (onAxis p.1 p.2) :=
  if_pos (isFinite_of_summand? h)

theorem place_of_no_summand (w : Vec3) {p : Axis × Float} (h : summand? p = none) : w.place p = w := by
  rw [place, summand?_eq_none_iff.1 h]
  rfl

theorem mergeAdd_nan_left {c : Float} (hc : c.isNaN = false) : mergeAdd Double.nan c = c := by
  rw [mergeAdd, if_neg (Bool.eq_false_iff.1 hc), if_pos Double.isNaN_nan]

theorem mergeAdd_nan_right {c : Float} (hc : c.isNaN = false) : mergeAdd c Double.nan = c := by
  rw [mergeAdd, if_pos Double.isNaN_nan, if_neg (Bool.eq_false_iff.1 hc)]

theorem mergeAdd_nan_nan : mergeAdd Double.nan Double.nan = Double.nan := by
  rw [mergeAdd, if_pos Double.isNaN_nan, if_pos Double.isNaN_nan]

theorem unset_add_onAxis (axis : Axis) {c : Float} (hc : c.isFinite = true) :
    unset.add (onAxis axis c) = onAxis axis c := by
  have hleft := mergeAdd_nan_left (Double.isNaN_of_isFinite hc)
  cases axis <;> simp [add, zip, unset, onAxis, hleft, mergeAdd_nan_nan]

/-- on different axes nothing is added up -/
theorem foldl_place_axes (v : Vec3) : v.axes.foldl place unset = v.finitePart := by
  obtain ⟨x, y, z⟩ := v
  have hleft {c : Float} (hc : c.isFinite = true) := mergeAdd_nan_left (Double.isNaN_of_isFinite hc)
  have hright {c : Float} (hc : c.isFinite = true) := mergeAdd_nan_right (Double.isNaN_of_isFinite hc)
  cases hx : x.isFinite <;> cases hy : y.isFinite <;> cases hz : z.isFinite <;>
    simp [axes, place, finitePart, map, add, zip, unset, onAxis, mergeAdd_nan_nan, *]

theorem finitePart_of_finite {v : Vec3} (hx : v.x.isFinite = true) (hy : v.y.isFinite = true)
    (hz : v.z.isFinite = true) : v.finitePart = v := by
  simp [finitePart, map, hx, hy, hz]

/-- all three components, or the sum of the finite ones -/
theorem source?_cases (v : Vec3) :
    (∃ x y z, Decimal.literal? v.x = some x ∧ Decimal.literal? v.y = some y ∧ Decimal.literal? v.z = some z ∧
      v.source? = some (x ++ " " ++ y ++ " " ++ z ++ " ->VEC3")) ∨
    v.source? = sumOfAxes (v.axes.filterMap summand?) := by
  unfold source?
  split
  · rename_i x y z hx hy hz
    exact .inl ⟨x, y, z, hx, hy, hz, rfl⟩
  · exact .inr rfl

theorem sumOfAxes_eq_none_iff {parts : List String} : sumOfAxes parts = none ↔ parts = [] := by
  cases parts with
  | nil => exact ⟨fun _ => rfl, fun _ => rfl⟩
  | cons first rest => simp [sumOfAxes]

/-- a vector without a finite component has no source -/
theorem source?_eq_none_iff (v : Vec3) : v.source? = none ↔ ∀ c ∈ v.components, c.isFinite = false := by
  rcases source?_cases v with ⟨x, y, z, hx, -, -, hsource⟩ | hsource
  · rw [hsource]
    constructor
    · intro h
      cases h
    · intro h
      rw [Decimal.literal?_eq_none_iff.2 (h v.x List.mem_cons_self)] at hx
      cases hx
  · simp only [hsource, sumOfAxes_eq_none_iff, List.filterMap_eq_nil_iff, summand?_eq_none_iff]
    simp [axes, components]

/-- the finite part equals the vector unless a component is infinite -/
theorem same_finitePart_iff (v : Vec3) : v.finitePart.same v = true ↔ ∀ c ∈ v.components, c.isInf = false := by
  have hcomponent (c : Float) :
      ((if c.isFinite then c else Double.nan) == c ||
        (if c.isFinite then c else Double.nan).isNaN && c.isNaN) = !c.isInf := by
    rw [Double.isInf_eq]
    cases hc : c.isFinite with
    | true =>
      rw [if_pos rfl, Double.beq_self (Double.isNaN_of_isFinite hc)]
      rfl
    | false =>
      rw [if_neg Bool.false_ne_true, Double.beq_of_isNaN Double.isNaN_nan, Double.isNaN_nan]
      cases c.isNaN <;> rfl
  simp only [same, components, finitePart, map, List.zip_cons_cons, List.zip_nil_right, List.all_cons, hcomponent,
    List.all_nil, Bool.and_true, Bool.and_eq_true, Bool.not_eq_eq_eq_not, Bool.not_true, List.mem_cons,
    List.not_mem_nil, or_false, forall_eq_or_imp, forall_eq]

end Vec3

/-! ## The source of a vector -/

section Takes

variable {answer : Answer} (hanswer : ∀ r, Evolving (answer r))

include hanswer in
theorem takes_double {c : Float} {text : String} (hread : Decimal.ReadsBack c) (h : Decimal.literal? c = some text) :
    Takes answer text [] [.double c] :=
  takes_number hanswer (Token.isWord_of_double (hread text h)) (hread text h)

include hanswer in
theorem takes_onAxis (axis : Axis) (c : Float) : Takes answer axis.word [.double c] [.vec3 (Vec3.onAxis axis c)] := by
  cases axis with
  | x => exact takes_operator hanswer _ (.vector (.onAxis .x)) (by decide) (by decide) (fun _ => rfl) fun _ => rfl
  | y => exact takes_operator hanswer _ (.vector (.onAxis .y)) (by decide) (by decide) (fun _ => rfl) fun _ => rfl
  | z => exact takes_operator hanswer _ (.vector (.onAxis .z)) (by decide) (by decide) (fun _ => rfl) fun _ => rfl

include hanswer in
theorem takes_vectorSum (v w : Vec3) : Takes answer "+" [.vec3 w, .vec3 v] [.vec3 (v.add w)] :=
  takes_operator hanswer _ (.vector .add) (by decide) (by decide) (fun _ => rfl) fun _ => rfl

include hanswer in
theorem takes_summand {p : Axis × Float} {text : String} (hread : Decimal.ReadsBack p.2)
    (h : Vec3.summand? p = some text) : Takes answer text [] [.vec3 (Vec3.onAxis p.1 p.2)] := by
  obtain ⟨number, hnumber, rfl⟩ := Option.map_eq_some_iff.1 h
  exact (takes_double hanswer hread hnumber).trans hanswer (takes_onAxis hanswer p.1 p.2)

include hanswer in
/-- each further summand is placed on its axis -/
theorem takes_places {axes : List (Axis × Float)} (hread : ∀ p ∈ axes, Decimal.ReadsBack p.2) {first : String}
    {w : Vec3} (hfirst : Takes answer first [] [.vec3 w]) :
    Takes answer ((axes.filterMap Vec3.summand?).foldl (fun text part => text ++ " " ++ part ++ " +") first) []
      [.vec3 (axes.foldl Vec3.place w)] := by
  induction axes generalizing first w with
  | nil => exact hfirst
  | cons p axes ih =>
    have hrest : ∀ p' ∈ axes, Decimal.ReadsBack p'.2 := fun p' hp' => hread p' (List.mem_cons_of_mem p hp')
    cases hp : Vec3.summand? p with
    | none =>
      rw [List.filterMap_cons_none hp, List.foldl_cons, Vec3.place_of_no_summand w hp]
      exact ih hrest hfirst
    | some part =>
      have hpart := (takes_summand hanswer (hread p List.mem_cons_self) hp).frame [.vec3 w]
      have hsum := (hfirst.trans hanswer hpart).followed hanswer (takes_vectorSum hanswer w _) rfl
      rw [List.filterMap_cons_some hp, List.foldl_cons, List.foldl_cons, Vec3.place_of_summand? w hp]
      exact ih hrest hsum

include hanswer in
/-- the first summand stands alone -/
theorem takes_sumOfAxes {axes : List (Axis × Float)} (hread : ∀ p ∈ axes, Decimal.ReadsBack p.2) {text : String}
    (h : Vec3.sumOfAxes (axes.filterMap Vec3.summand?) = some text) :
    Takes answer text [] [.vec3 (axes.foldl Vec3.place Vec3.unset)] := by
  induction axes with
  | nil => cases h
  | cons p axes ih =>
    have hrest : ∀ p' ∈ axes, Decimal.ReadsBack p'.2 := fun p' hp' => hread p' (List.mem_cons_of_mem p hp')
    cases hp : Vec3.summand? p with
    | none =>
      rw [List.filterMap_cons_none hp] at h
      rw [List.foldl_cons, Vec3.place_of_no_summand _ hp]
      exact ih hrest h
    | some part =>
      have hpart := takes_summand hanswer (hread p List.mem_cons_self) hp
      rw [List.filterMap_cons_some hp] at h
      rw [List.foldl_cons, Vec3.place_of_summand? _ hp, Vec3.unset_add_onAxis p.1 (Vec3.isFinite_of_summand? hp),
        ← Option.some.inj h]
      exact takes_places hanswer hrest hpart

include hanswer in
theorem takes_vectorSource {v : Vec3} (hread : ∀ c ∈ v.components, Decimal.ReadsBack c) {text : String}
    (h : v.source? = some text) : Takes answer text [] [.vec3 v.finitePart] := by
  rcases v.source?_cases with ⟨x, y, z, hx, hy, hz, hsource⟩ | hsource
  · rw [Vec3.finitePart_of_finite (Decimal.isFinite_of_literal? hx) (Decimal.isFinite_of_literal? hy)
      (Decimal.isFinite_of_literal? hz)]
    have hfirst := takes_double hanswer (hread v.x (by simp [Vec3.components])) hx
    have hsecond := (takes_double hanswer (hread v.y (by simp [Vec3.components])) hy).frame [.double v.x]
    have hthird := (takes_double hanswer (hread v.z (by simp [Vec3.components])) hz).frame [.double v.y, .double v.x]
    rw [← Option.some.inj (hsource.symm.trans h)]
    exact ((hfirst.trans hanswer hsecond).trans hanswer hthird).followed hanswer (takes_vector hanswer v) rfl
  · have haxes : ∀ p ∈ v.axes, Decimal.ReadsBack p.2 := by
      simp only [Vec3.axes, Vec3.components, List.forall_mem_cons] at hread ⊢
      exact ⟨hread.1, hread.2.1, hread.2.2.1, by simp⟩
    rw [hsource] at h
    rw [← v.foldl_place_axes]
    exact takes_sumOfAxes hanswer haxes h

end Takes

/-! ## Lines of a session -/

/-- **The source of a vector keeps its finite components.** A vector has no source exactly if none of its components is
finite. Where literals of its components are read back, its source is a line that succeeds outside a compilation and
pushes a single value onto an unbounded stack: the vector, with components that are not finite left unset. That is the
vector itself, unset components matching unset ones, exactly if it has no infinite component. -/
theorem vector_source_keeps_finite {m : Machine} (hm : Reachable m) (hidle : m.isCompiling = false)
    {items : List Value} (hstack : m.stack = ⟨items, none⟩) {v : Vec3}
    (hread : ∀ c ∈ v.components, Decimal.ReadsBack c) :
    ((Value.vec3 v).source? = none ↔ ∀ c ∈ v.components, c.isFinite = false) ∧
    (∀ text, (Value.vec3 v).source? = some text → ∃ status log,
      Machine.eval text m = .ok () { m with stack := ⟨.vec3 v.finitePart :: items, none⟩, status, log }) ∧
    (v.finitePart.same v = true ↔ ∀ c ∈ v.components, c.isInf = false) := by
  refine ⟨v.source?_eq_none_iff, fun text htext => ?_, v.same_finitePart_iff⟩
  exact (takes_vectorSource (answerUpTo_evolves m.allowance) hread htext).eval hm hidle hstack

/-- a negative zero comes back, and so does an unset component -/
theorem vector_source_keeps_finite_unset :
    (∀ c ∈ (⟨1.5, Double.nan, -0.0⟩ : Vec3).components, Decimal.ReadsBack c) ∧
    (Value.vec3 ⟨1.5, Double.nan, -0.0⟩).source? = some "1.5 ->\x7bx\x7d -0.0 ->\x7bz\x7d +" ∧
    ∃ m : Machine, Reachable m ∧ m.isCompiling = false ∧ m.stack = ⟨[], none⟩ ∧ ∃ w status log,
      Machine.eval "1.5 ->\x7bx\x7d -0.0 ->\x7bz\x7d +" m =
        .ok () { m with stack := ⟨[.vec3 w], none⟩, status, log } ∧
      w.same ⟨1.5, Double.nan, -0.0⟩ = true := by
  have hread : ∀ c ∈ (⟨1.5, Double.nan, -0.0⟩ : Vec3).components, Decimal.ReadsBack c := by
    simp only [Vec3.components, List.forall_mem_cons]
    refine ⟨.of_text "1.5" (by decide +kernel) rfl, .of_not_finite (by decide +kernel),
      .of_text "-0.0" (by decide +kernel) rfl, by simp⟩
  have hsource : (Value.vec3 ⟨1.5, Double.nan, -0.0⟩).source? = some "1.5 ->\x7bx\x7d -0.0 ->\x7bz\x7d +" := by
    decide +kernel
  obtain ⟨m, hm, hidle, hstack⟩ := reachable_fresh
  obtain ⟨-, heval, hsame⟩ := vector_source_keeps_finite hm hidle hstack hread
  obtain ⟨status, log, hline⟩ := heval _ hsource
  exact ⟨hread, hsource, m, hm, hidle, hstack, _, status, log, hline, hsame.2 (by decide +kernel)⟩

/-- an infinite component comes back unset -/
theorem infinite_component_lost :
    (Value.vec3 ⟨1.0, Double.infinity, 3.0⟩).source? = some "1.0 ->\x7bx\x7d 3.0 ->\x7bz\x7d +" ∧
    ∃ m : Machine, Reachable m ∧ m.isCompiling = false ∧ m.stack = ⟨[], none⟩ ∧ ∃ status log,
      Machine.eval "1.0 ->\x7bx\x7d 3.0 ->\x7bz\x7d +" m =
        .ok () { m with stack := ⟨[.vec3 ⟨1.0, Double.nan, 3.0⟩], none⟩, status, log } ∧
      Vec3.same ⟨1.0, Double.nan, 3.0⟩ ⟨1.0, Double.infinity, 3.0⟩ = false := by
  have hread : ∀ c ∈ (⟨1.0, Double.infinity, 3.0⟩ : Vec3).components, Decimal.ReadsBack c := by
    simp only [Vec3.components, List.forall_mem_cons]
    refine ⟨.of_text "1.0" (by decide +kernel) rfl, .of_not_finite (by decide +kernel),
      .of_text "3.0" (by decide +kernel) rfl, by simp⟩
  have hsource : (⟨1.0, Double.infinity, 3.0⟩ : Vec3).source? = some "1.0 ->\x7bx\x7d 3.0 ->\x7bz\x7d +" := by
    decide +kernel
  obtain ⟨m, hm, hidle, hstack⟩ := reachable_fresh
  obtain ⟨status, log, hline⟩ :=
    (takes_vectorSource (answerUpTo_evolves m.allowance) hread hsource).eval hm hidle hstack
  exact ⟨hsource, m, hm, hidle, hstack, status, log, hline, by decide +kernel⟩

end ReversePolish
