/-
Tracing has no effect.

Two machines that differ in the flag for tracing stay in step: what the one reports more are events of tracing, and no
word looks at the flag or at the report. A line leaves the flags as they were, or sets both (`tracing_has_no_effect`).
-/
import ReversePolish.Proofs.Compilation.Sound
import ReversePolish.Proofs.Machine.Compose

namespace ReversePolish

theorem Event.isTrace_iff (e : Event) : e.isTrace = true ↔ e.target = "rpn::trace" := by
  cases e <;> simp [Event.isTrace, Event.target]

/-- the events from the oldest on, those of tracing apart -/
theorem Machine.untraced_events (m : Machine) :
    m.events.filter (fun e => e.target ≠ "rpn::trace") = m.report.reverse := by
  unfold Machine.events Machine.report
  rw [List.filter_reverse]
  congr 1
  apply List.filter_congr
  intro e _
  rw [decide_not, Bool.eq_iff_iff]
  simp [← Event.isTrace_iff]

/-- the flags are the given ones, or the same on both machines -/
def flagGap (on on' : Bool) : Gap :=
  { traceGap with flags := fun f f' => f' = f ∨ f = on ∧ f' = on', flags_refl := fun _ => .inl rfl }

theorem Machine.flag_inStep {m : Machine} (hm : m.dictionary.Built natives) (on : Bool) :
    InStep (flagGap m.tracing on) m { m with tracing := on } where
  stack := .inl rfl
  built := hm
  dictionary := rfl
  compilation := rfl
  scopes := rfl
  input := (List.append_nil m.input).symm
  tracing := .inr ⟨rfl, rfl⟩
  status := rfl
  callDepth := rfl
  maxCallDepth := .inl rfl
  seed := rfl
  report := rfl

/-- the machines are the same but for the flag for tracing and the report, and the report is the same but for the events
of tracing -/
structure SameButTracing (m n : Machine) : Prop where
  state : n = { m with tracing := n.tracing, log := n.log }
  events : n.events.filter (fun e => e.target ≠ "rpn::trace") = m.events.filter (fun e => e.target ≠ "rpn::trace")

theorem InStep.sameButTracing {on on' : Bool} {m n : Machine} (h : InStep (flagGap on on') m n) :
    SameButTracing m n where
  state := h.eq_but_tracing not_false rfl
  events := by rw [m.untraced_events, n.untraced_events, h.report]

/-- **Tracing has no effect.** On machines that differ in the flag for tracing only, a line has the same result and
leaves the same machine but for the events of tracing; the flags are the same after it, or as they were before it. -/
theorem tracing_has_no_effect {m : Machine} (hm : m.dictionary.Built natives) (on : Bool) (line : String) :
    (Machine.eval line { m with tracing := on }).error? = (Machine.eval line m).error? ∧
    SameButTracing (Machine.eval line m).state (Machine.eval line { m with tracing := on }).state ∧
    ((Machine.eval line { m with tracing := on }).state.tracing = (Machine.eval line m).state.tracing ∨
      (Machine.eval line m).state.tracing = m.tracing ∧
        (Machine.eval line { m with tracing := on }).state.tracing = on) := by
  have hruns := eval_inStep line (Machine.flag_inStep hm on)
  generalize Machine.eval line m = r at hruns ⊢
  generalize Machine.eval line { m with tracing := on } = r' at hruns ⊢
  cases hruns with
  | ok _ h => exact ⟨rfl, h.sameButTracing, h.tracing⟩
  | error h =>
    obtain ⟨rfl, h⟩ := h
    exact ⟨rfl, h.sameButTracing, h.tracing⟩
  | cut h => exact h.elim

/-- a definition under tracing installs the same body -/
theorem tracing_has_no_effect_definition :
    ∃ m : Machine, m.dictionary.Built natives ∧ m.tracing = false ∧
      ∃ m', Machine.eval ": SUM 5 FOR I I + NEXT ;" { m with tracing := true } = .ok () m' ∧
        m'.dictionary = m.dictionary.install sumBody ∧ m'.stack = m.stack := by
  obtain ⟨m, hm, hidle, -⟩ := reachable_fresh
  have hm' : Reachable _ := hm.host m.stack false m.maxCallDepth
  obtain ⟨status, log, hdefined⟩ := eval_definition hm'.built hidle (defines_sum hm'.built)
  obtain ⟨hresult, hsame, -⟩ := tracing_has_no_effect hm'.built true ": SUM 5 FOR I I + NEXT ;"
  rw [hdefined] at hresult hsame
  refine ⟨_, hm'.built, rfl, ?_⟩
  generalize Machine.eval ": SUM 5 FOR I I + NEXT ;" { m with tracing := true } = r at hresult hsame ⊢
  cases r with
  | ok _ m' =>
    have hstate := hsame.state
    rw [EStateM.Result.state_ok] at hstate
    exact ⟨m', rfl, by rw [hstate]; rfl, by rw [hstate]; rfl⟩
  | error f m' => cases hresult

end ReversePolish
