/-
Limits only cut runs short.

A machine with looser limits on its stack and on its calls does what the machine with the tighter ones does, unless the
latter fails over a limit: no word notices a limit, nor hides that one was hit (`limits_only_cut`).
-/
import ReversePolish.Proofs.Compilation.Sound
import ReversePolish.Proofs.Machine.Lockstep

namespace ReversePolish

/-- the machine with other limits -/
def Machine.limited (m : Machine) (limit : Option Nat) (maxCallDepth : Nat) : Machine :=
  { m with stack := { m.stack with limit }, maxCallDepth }

/-- the same to a host, limits and the events of tracing apart -/
structure SameButLimits (m n : Machine) : Prop where
  items : n.stack.items = m.stack.items
  dictionary : n.dictionary = m.dictionary
  compilation : n.compilation = m.compilation
  scopes : n.scopes = m.scopes
  seed : n.seed = m.seed
  tracing : n.tracing = m.tracing
  status : n.status = m.status
  report : n.report = m.report

/-- the second machine may have looser limits, and is the same otherwise -/
def limitGap : Gap where
  loose := True
  flags on on' := on' = on
  flags_refl _ := rfl
  more := []
  cut f := f.isLimit = true
  limits _ _ h := h
  reads := .inl rfl

theorem InStep.sameButLimits {m n : Machine} (h : InStep limitGap m n) : SameButLimits m n :=
  { h with items := h.items, tracing := h.tracing }

theorem Machine.limited_inStep {m : Machine} (hm : m.dictionary.Built natives) {limit : Option Nat} {depth : Nat}
    (hlimit : ∀ l', limit = some l' → ∃ l, m.stack.limit = some l ∧ l ≤ l') (hdepth : m.maxCallDepth ≤ depth) :
    InStep limitGap m (m.limited limit depth) where
  stack := .inr ⟨trivial, rfl, hlimit⟩
  built := hm
  dictionary := rfl
  compilation := rfl
  scopes := rfl
  input := (List.append_nil m.input).symm
  tracing := rfl
  status := rfl
  callDepth := rfl
  maxCallDepth := .inr ⟨trivial, hdepth⟩
  seed := rfl
  report := rfl

/-- **Limits only cut runs short.** Under looser limits a line has the same result and leaves the same machine, unless
under the tighter ones it fails with an overflow of the stack or a call that is refused. -/
theorem limits_only_cut {m : Machine} (hm : Reachable m) (limit : Option Nat) (depth : Nat)
    (hlimit : ∀ l', limit = some l' → ∃ l, m.stack.limit = some l ∧ l ≤ l') (hdepth : m.maxCallDepth ≤ depth)
    (line : String) :
    (∃ l, (Machine.eval line m).error? = some (.stack (.overflow l))) ∨
    (∃ word l, (Machine.eval line m).error? = some (.callDepth word l)) ∨
    (Machine.eval line (m.limited limit depth)).error? = (Machine.eval line m).error? ∧
      SameButLimits (Machine.eval line m).state (Machine.eval line (m.limited limit depth)).state := by
  have hruns := eval_inStep line (Machine.limited_inStep hm.built hlimit hdepth)
  have hnesting := eval_ne_nesting hm line
  generalize Machine.eval line m = r at hruns hnesting ⊢
  generalize Machine.eval line (m.limited limit depth) = r' at hruns ⊢
  cases hruns with
  | ok _ h => exact .inr (.inr ⟨rfl, h.sameButLimits⟩)
  | error h =>
    obtain ⟨rfl, h⟩ := h
    exact .inr (.inr ⟨rfl, h.sameButLimits⟩)
  | @cut f m' r hcut =>
    match f, hcut with
    | .stack (.overflow l), _ => exact .inl ⟨l, rfl⟩
    | .callDepth word l, _ => exact .inr (.inl ⟨word, l, rfl⟩)
    | .nesting, _ => exact absurd rfl hnesting

/-- a definition that succeeds under tight limits succeeds under looser ones, and installs the same body -/
theorem limits_only_cut_definition :
    ∃ m, Reachable m ∧ m.stack.limit = some 1 ∧ m.maxCallDepth = 1 ∧
      ∃ m', Machine.eval ": SUM 5 FOR I I + NEXT ;" (m.limited (some 2) 3) = .ok () m' ∧
        m'.dictionary = m.dictionary.install sumBody := by
  obtain ⟨m, hm, hidle, -⟩ := reachable_fresh
  have hm' : Reachable _ := hm.host ⟨[], some 1⟩ false 1
  obtain ⟨status, log, hdefined⟩ := eval_definition hm'.built hidle (defines_sum hm'.built)
  have hdepth : (1 : Nat) ≤ 3 := by decide
  have hlimit (l' : Nat) (hl' : some 2 = some l') : ∃ l, some 1 = some l ∧ l ≤ l' := ⟨1, rfl, by cases hl'; decide⟩
  have hruns := limits_only_cut hm' (some 2) 3 hlimit hdepth ": SUM 5 FOR I I + NEXT ;"
  rw [hdefined] at hruns
  rcases hruns with ⟨l, h⟩ | ⟨word, l, h⟩ | ⟨hsame, hout⟩
  · cases h
  · cases h
  · refine ⟨_, hm', rfl, rfl, ?_⟩
    have hdictionary := hout.dictionary
    generalize Machine.eval ": SUM 5 FOR I I + NEXT ;" (Machine.limited _ (some 2) 3) = r at hsame hdictionary ⊢
    cases r with
    | ok _ m' => exact ⟨m', rfl, hdictionary⟩
    | error f m' => cases hsame

end ReversePolish
