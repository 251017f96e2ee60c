/-
Scopes and calls are balanced.

- Every evaluation gives the scopes and the depth of calls back as it found them, also when it fails inside any nesting
  of calls and loops, so a reachable machine has no scopes and no running calls.
- `answerWithin` answers as the machine does, but has room for a set number of calls inside one another: where one call
  more would start to run its items, it does anything else instead (`beyond`). `answerWithin_coincide`: with room up to
  `maxCallDepth` that makes no difference, so no run ever has more calls inside one another.
- `balanced_evaluation` puts these together with what becomes of a call at the limit.
-/
import ReversePolish.Proofs.Machine.Execution

namespace ReversePolish

/-! ## Machines with room for so many calls -/

/-- the items of a call, which have room for one call less, or what is done instead if there is no room -/
def withRoom (beyond : MachineM Unit) (items : Nat → MachineM Unit) : Nat → MachineM Unit
  | 0 => beyond
  | room + 1 => items room

/-- bodies are run with room for so many more calls -/
def Runner.within (beyond : MachineM Unit) (answer : Nat → Answer) : Runner (ReaderT Nat MachineM) where
  word word room := runItemWord (answer room) word
  text text room := runItemString (answer room) text
  body b items room :=
    match b.kind with
    | .word => inCall b (withRoom beyond items room)
    | .loop => inLoop b (items room)

/-- runs a body with room for so many more calls -/
def runBodyWithin (beyond : MachineM Unit) (answer : Nat → Answer) (room : Nat) (b : Body) : MachineM Unit :=
  (Runner.within beyond answer).runBody b room

/-- runs items with room for so many more calls -/
def runItemsWithin (beyond : MachineM Unit) (answer : Nat → Answer) (room : Nat) (items : List Item) : MachineM Unit :=
  (Runner.within beyond answer).runItems items room

/-- answers requests that nest at most n deep, with room for so many more calls -/
def answerWithin (beyond : MachineM Unit) : Nat → Nat → Answer
  | 0, _, _ => throw .nesting
  | n + 1, room, .body b => runBodyWithin beyond (answerWithin beyond n) room b
  | n + 1, room, .line text => evalLine (answerWithin beyond n room) text

/-- has the machine room for no more than so many calls? -/
def Machine.Within (room : Nat) (m : Machine) : Prop := m.maxCallDepth ≤ m.callDepth + room

theorem Machine.within_stable (room : Nat) : Stable (Machine.Within room) := by
  intro m m' h hm
  unfold Machine.Within at *
  rw [h.maxCallDepth, h.callDepth]
  exact hm

/-- the steps do the same on every machine with room for no more than so many calls -/
abbrev CoincideWithin (room : Nat) (x y : MachineM Unit) : Prop := Coincide (Machine.Within room) AnyFault x y

theorem inLoop_within {room : Nat} {x y : MachineM Unit} (hxy : CoincideWithin room x y) (b : Body) :
    CoincideWithin room (inLoop b x) (inLoop b y) := by
  refine hxy.inLoop (.ofEffect _) (fun _ => trivial) fun m m' _ _ hm hev _ _ => ?_
  have hmax : m'.maxCallDepth = m.maxCallDepth := hev.maxCallDepth
  have hdepth : m'.callDepth = m.callDepth := hev.callDepth
  unfold Machine.Within at *
  omega

/-- a call that may start uses up room for one, and without room none may start -/
theorem inCall_within {beyond : MachineM Unit} {x : Nat → MachineM Unit} {y : MachineM Unit}
    (hxy : ∀ room, CoincideWithin room (x room) y) (b : Body) (room : Nat) :
    CoincideWithin room (inCall b (withRoom beyond x room)) (inCall b y) := by
  cases room with
  | zero =>
    refine Coincide.inCall (R := fun _ => False) (fun _ h => h.elim) (fun _ => trivial) fun m hm hdepth => ?_
    unfold Machine.Within at hm
    omega
  | succ room =>
    refine (hxy room).inCall (fun _ => trivial) fun m hm hdepth => ?_
    unfold Machine.Within at *
    dsimp only
    omega

theorem within_related (beyond : MachineM Unit) {within : Nat → Answer} {answer : Answer}
    (hwithin : ∀ room r, CoincideWithin room (within room r) (answer r)) :
    Runner.Related (Runner.within beyond within) (Runner.evaluating answer)
      fun x y => ∀ room, CoincideWithin room (x room) y where
  nil _ := .pure _
  seq hx hx' room := .bind (Machine.within_stable room) (hx room) fun _ => hx' room
  missing _ := .throw trivial
  word word room := .runItemWord (Machine.within_stable room) (fun _ _ => id) (hwithin room) word
  text text room := .runItemString (Machine.within_stable room) (fun _ _ => id) (hwithin room) text
  body b x y hxy room := by
    simp only [Runner.within, Runner.evaluating, inBody]
    cases b.kind with
    | word => exact inCall_within hxy b room
    | loop => exact inLoop_within (hxy room) b

theorem answerWithin_coincide (beyond : MachineM Unit) (n room : Nat) (r : Request) :
    CoincideWithin room (answerWithin beyond n room r) (answerUpTo n r) := by
  induction n generalizing room r with
  | zero => exact .throw trivial
  | succ n ih =>
    cases r with
    | body b => exact (within_related beyond ih).runBody b room
    | line text => exact .evalLine (Machine.within_stable room) (fun _ _ => id) (ih room) text

/-! ## Balance -/

/-- the same scopes, and as many running calls -/
structure Balanced (m m' : Machine) : Prop where
  scopes : m'.scopes = m.scopes
  callDepth : m'.callDepth = m.callDepth

theorem Evolves.balanced {m m' : Machine} (h : Evolves m m') : Balanced m m' := ⟨h.scopes, h.callDepth⟩

theorem Reachable.balanced {m : Machine} (h : Reachable m) : m.scopes = [] ∧ m.callDepth = 0 := by
  refine h.keeps (P := fun m => m.scopes = [] ∧ m.callDepth = 0) ?_ ?_ ?_
  · exact fun s dictionary status log _ => ⟨rfl, rfl⟩
  · intro m m' hev hm
    rwa [hev.scopes, hev.callDepth]
  · exact fun m stack tracing maxCallDepth hm => hm

/-- the entry points, on a machine with room for so many more calls, do what they do on the machine itself -/
structure Machine.RunsWithin (room : Nat) (m : Machine) : Prop where
  line : ∀ beyond (line : String), evalLine (answerWithin beyond m.allowance room) line.toList m = Machine.eval line m
  word : ∀ beyond (word : String),
    evalWord (answerWithin beyond m.allowance room) word m = evalWord (answerUpTo m.allowance) word m
  body : ∀ beyond (b : Body),
    runBodyWithin beyond (answerWithin beyond m.allowance) room b m = Machine.run b m
  call : ∀ beyond (b : Body),
    inCall b (withRoom beyond
      (fun room => runItemsWithin beyond (answerWithin beyond m.allowance) room b.items) room) m = Machine.call b m

theorem Machine.Within.runsWithin {room : Nat} {m : Machine} (h : m.Within room) : m.RunsWithin room := by
  have hstable := Machine.within_stable room
  have hanswer (beyond : MachineM Unit) := answerWithin_coincide beyond m.allowance
  refine ⟨fun beyond line => ?_, fun beyond word => ?_, fun beyond b => ?_, fun beyond b => ?_⟩
  · have hline := Coincide.evalLine hstable (fun _ _ => id) (hanswer beyond room) line.toList
    exact (hline.eq h).symm
  · have hword := Coincide.evalWord hstable (hanswer beyond room) word
    exact (hword.eq h).symm
  · have hbody := (within_related beyond (hanswer beyond)).runBody b room
    exact (hbody.eq h).symm
  · have hitems := (within_related beyond (hanswer beyond)).runItems b.items
    exact ((inCall_within hitems b room).eq h).symm

/-- **Balance.** A line, a word, a body or a call, evaluated on any machine, gives the scopes and the depth of calls
back as it found them, whether it succeeds or fails. So a reachable machine has no scopes and no running calls. No run
has more calls inside one another than the limit allows: what a further call would do makes no difference to any result.
A call at the limit is a fault of evaluation, and leaves the machine as it was. -/
theorem balanced_evaluation :
    (∀ m : Machine, (∀ line, Balanced m (Machine.eval line m).state) ∧
      (∀ word rest, Balanced m (Machine.evalOne word rest m).1.state) ∧
      (∀ b, Balanced m (Machine.run b m).state) ∧ ∀ b, Balanced m (Machine.call b m).state) ∧
    (∀ m, Reachable m → m.scopes = [] ∧ m.callDepth = 0) ∧
    (∀ m : Machine, m.RunsWithin (m.maxCallDepth - m.callDepth)) ∧
    ∀ (m : Machine) (b : Body) (items : MachineM Unit), m.maxCallDepth ≤ m.callDepth →
      ∃ f, inCall b items m = .error f m ∧ f.kind = .eval := by
  refine ⟨fun m => ⟨?_, ?_, ?_, ?_⟩, fun m h => h.balanced, fun m => ?_, fun m b items h => ?_⟩
  · exact fun line => (eval_evolves line m).balanced
  · exact fun word rest => (evalOne_evolves word rest m).balanced
  · exact fun b => (run_evolves b m).balanced
  · exact fun b => (call_evolves b m).balanced
  · have hwithin : m.Within (m.maxCallDepth - m.callDepth) := by
      unfold Machine.Within
      omega
    exact hwithin.runsWithin
  · exact ⟨_, inCall_refused h b items, rfl⟩

/-- a word that calls F in a loop -/
def callingLoop : Body := ⟨.word, "G", [.word "0", .word "2", .block ⟨.loop, "I", [.word "F"], []⟩], []⟩

theorem defines_callingLoop {d : Dictionary} (hF : d.contains "F" = true) :
    Defines d ": G 0 2 FOR I F NEXT ;".toList "G" callingLoop.items := by
  have hzero : d.Knows ["G"] "0" :=
    .inl ⟨_, Token.literal_integer (n := 0) (by decide)⟩
  have htwo : d.Knows ["G"] "2" :=
    .inl ⟨_, Token.literal_integer (n := 2) (by decide)⟩
  have hcall : d.Knows ["I", "G"] "F" := .inr ⟨Token.literal_eq_name_iff.2 (by decide), .inr hF⟩
  have hread : Token.next "0 2 FOR I F NEXT ;".toList = ("0".toList, "2 FOR I F NEXT ;".toList) := by decide
  have hread' : Token.next "2 FOR I F NEXT ;".toList = ("2".toList, "FOR I F NEXT ;".toList) := by decide
  have hfor : Token.next "FOR I F NEXT ;".toList = ("FOR".toList, "I F NEXT ;".toList) := by decide
  have hname : Token.next "I F NEXT ;".toList = ("I".toList, "F NEXT ;".toList) := by decide
  have hnext : Token.next "NEXT ;".toList = ("NEXT".toList, ";".toList) := by decide
  have hbody : Captures d.Knows ["I", "G"] "F NEXT ;".toList [.word "F"] "NEXT ;".toList :=
    .word "F" (by decide) (by decide) (by decide) hcall (.done _ _)
  have hitems : Captures d.Knows ["G"] "0 2 FOR I F NEXT ;".toList callingLoop.items ";".toList :=
    .word "0" hread (by decide) (by decide) hzero (.word "2" hread' (by decide) (by decide) htwo
      (.loop "I" hfor hname ⟨by decide, by decide, by decide⟩ hbody hnext (.done _ _)))
  exact ⟨⟨"G 0 2 FOR I F NEXT ;".toList, _, _, [], by decide, by decide, hitems, by decide, by decide⟩,
    ⟨by decide, by decide, by decide⟩⟩

/-- the call in the loop is refused where one call is running and no other is allowed -/
theorem runItems_refused {m : Machine} (hm : m.dictionary.Built natives) (hidle : m.isCompiling = false)
    (hlimit : m.maxCallDepth ≤ m.callDepth) {name : String} (fit : IsName name)
    (hnative : Dictionary.nativesOf natives name = []) (hfree : m.findLocal? name = none) {b : Body}
    (hb : m.dictionary.body? name = some b) (hkind : b.kind = .word) (j : Nat) (items : List Item) :
    ∃ m', runItems (answerUpTo (j + 1)) (.word name :: items) m = .error (.callDepth b.ident m.maxCallDepth) m' := by
  obtain ⟨log, hcall⟩ := evalWord_call (m := { m with input := [] }) hm hidle fit hnative hb hkind j
  rw [inCall_refused (m := { m with input := [], log }) hlimit] at hcall
  have hword := (runItemWord_global hfree).trans (congrArg (onLine m.input) hcall)
  rw [runItems_word _ (ne_stringWord fit.2.2)]
  exact ⟨_, bind_of_error hword⟩

/-- where one call is allowed, the word fails in the first pass of its loop -/
theorem eval_callingLoop {m : Machine} (hm : m.dictionary.Built natives) (hidle : m.isCompiling = false)
    (hstack : m.stack = ⟨[], none⟩) (hdepth : m.callDepth = 0) (hlimit : m.maxCallDepth = 1) {b : Body}
    (hF : m.dictionary.body? "F" = some b) (hkind : b.kind = .word)
    (hG : m.dictionary.body? "G" = some callingLoop) :
    ∃ m', Machine.eval "G" m = .error (.callDepth b.ident 1) m' := by
  obtain ⟨j, hj⟩ := m.exists_allowance
  obtain ⟨log, hcall⟩ := eval_name hm hidle (by decide) ⟨by decide, by decide, by decide⟩ (by decide +kernel) hG rfl hj
  obtain ⟨st₁, log₁, hzero⟩ := runItems_number (answerUpTo (j + 1)) [.word "2", .block ⟨.loop, "I", [.word "F"], []⟩]
    (m := { m with input := [], callDepth := m.callDepth + 1, scopes := [[]], log }) hidle
    (Token.literal_integer (w := "0".toList) (n := 0) (by decide)) rfl hstack
  obtain ⟨st₂, log₂, htwo⟩ := runItems_number (answerUpTo (j + 1)) [.block ⟨.loop, "I", [.word "F"], []⟩]
    (m := { m.holding [.integer 0] [] st₁ log₁ with callDepth := m.callDepth + 1, scopes := [[]] }) hidle
    (Token.literal_integer (w := "2".toList) (n := 2) (by decide)) rfl rfl
  obtain ⟨m', hpass⟩ := runItems_refused
    (m := { m.holding [] [] st₂ log₂ with callDepth := m.callDepth + 1, scopes := [[("I", .double 0.0)], []] })
    hm hidle (by change m.maxCallDepth ≤ m.callDepth + 1; omega)
    (⟨by decide, by decide, by decide⟩ : IsName "F") (by decide +kernel) rfl hF hkind j []
  have hbounds : MachineM.ofEffect popBounds
      { m.holding [.integer 2, .integer 0] [] st₂ log₂ with callDepth := m.callDepth + 1, scopes := [[]] } =
        .ok (0.0, 2.0) { m.holding [] [] st₂ log₂ with callDepth := m.callDepth + 1, scopes := [[]] } := rfl
  have hloop : runBody (answerUpTo (j + 1)) ⟨.loop, "I", [.word "F"], []⟩
      { m.holding [.integer 2, .integer 0] [] st₂ log₂ with callDepth := m.callDepth + 1, scopes := [[]] } =
        .error (.callDepth b.ident m.maxCallDepth) { m' with scopes := m'.scopes.tail } :=
    (runBody_of_bounds rfl hbounds).trans (congrArg unscoped (passes_error (by decide +kernel) hpass))
  have hitems : runItems (answerUpTo (j + 1)) callingLoop.items
      { m with input := [], callDepth := m.callDepth + 1, scopes := [[]], log } =
        .error (.callDepth b.ident m.maxCallDepth) { m' with scopes := m'.scopes.tail } := by
    refine hzero.trans (htwo.trans ?_)
    rw [runItems_block]
    exact bind_of_error hloop
  have hroom : m.callDepth < m.maxCallDepth := by omega
  rw [(inCall_eq (m := { m with input := [], log }) hroom _).trans (congrArg (returned m.scopes) hitems),
    hlimit] at hcall
  generalize Machine.eval "G" m = r at hcall ⊢
  cases hcall with
  | error hsame =>
    obtain ⟨rfl, -⟩ := hsame
    exact ⟨_, rfl⟩
  | cut h => exact h.elim

/-- in a session that allows one call, the line that calls the word fails so -/
theorem reachable_callingLoop :
    ∃ m m', Reachable m ∧ m.callDepth = 0 ∧ m.maxCallDepth = 1 ∧ m.dictionary.body? "F" = some (.ofWords "F" []) ∧
      m.dictionary.body? "G" = some callingLoop ∧ Machine.eval "G" m = .error (.callDepth "F" 1) m' := by
  obtain ⟨dictionary, status, log, hstart, -⟩ := start_ok (s := { maxCallDepth := 1 }) rfl
  have hm : Reachable { Settings.apply { maxCallDepth := 1 } Machine.core with dictionary, status, log } :=
    .start hstart
  obtain ⟨st₁, log₁, -, hm₁⟩ := hm.define rfl (sources_empty.defines _ hm.built)
  have hF : (dictionary.install (.ofWords "F" [])).body? "F" = some (.ofWords "F" []) := by
    rw [hm.built.body?_install (by decide), if_pos (by decide)]
  have hknown : (dictionary.install (.ofWords "F" [])).contains "F" = true :=
    (hm₁.built.contains_iff "F").2 (.inr (congrArg Option.isSome hF))
  obtain ⟨st₂, log₂, -, hm₂⟩ := hm₁.define rfl (defines_callingLoop hknown)
  have hG := (hm₁.built.body?_install (b := callingLoop) (by decide) "G").trans (if_pos rfl)
  have hF' := (hm₁.built.body?_install (b := callingLoop) (by decide) "F").trans ((if_neg (by decide)).trans hF)
  obtain ⟨m', hm'⟩ := eval_callingLoop hm₂.built rfl rfl rfl rfl hF' rfl hG
  exact ⟨_, m', hm₂, rfl, rfl, hF', hG, hm'⟩

/-- a call that is refused in a loop inside another call: the line gives back what it had taken -/
theorem balanced_evaluation_nested :
    ∃ m m', Reachable m ∧ m.maxCallDepth = 1 ∧ m.dictionary.body? "F" = some (.ofWords "F" []) ∧
      m.dictionary.body? "G" = some callingLoop ∧ Machine.eval "G" m = .error (.callDepth "F" 1) m' ∧ Balanced m m' ∧
      (m'.scopes = [] ∧ m'.callDepth = 0) ∧ m.RunsWithin 1 ∧
      ∃ f, inCall (.ofWords "F" []) (pure ()) { m with callDepth := 1 } = .error f { m with callDepth := 1 } ∧
        f.kind = .eval := by
  obtain ⟨m, m', hm, hdepth, hlimit, hF, hG, hm'⟩ := reachable_callingLoop
  have hbalanced := (balanced_evaluation.1 m).1 "G"
  have hreach := hm.eval "G"
  have hwithin := balanced_evaluation.2.2.1 m
  rw [hm'] at hbalanced hreach
  rw [hdepth, hlimit] at hwithin
  exact ⟨m, m', hm, hlimit, hF, hG, hm', hbalanced, balanced_evaluation.2.1 m' hreach, hwithin,
    balanced_evaluation.2.2.2 _ _ _ hlimit.le⟩

end ReversePolish
