/-
Two machines that run the same items.

The called machine is deeper in calls than the direct one, has more scopes below it that bind nothing, and knows one
word more, which no item uses. `Alike` relates the two at a `Place`, and `Agree` relates their results: both succeed in
machines that are alike, both fail with the same stack, or the called machine is refused a call. Results:
- `evalWord_alike`, `runItemWord_alike`, `runItemString_alike`: single words agree;
- `inLoop_alike`, `inCall_alike`: loops and calls agree if their items do;
- `runItems_alike`: items agree, whatever they call.
-/
import ReversePolish.Proofs.Compilation.WellFormed
import ReversePolish.Proofs.Machine.Execution

namespace ReversePolish

/-! ## Items that only compute -/

/-- the word is evaluated somewhere in the items: it is no text -/
inductive Runs (word : String) : List Item → Prop
  | here {items : List Item} (h : word ≠ stringWord) : Runs word (.word word :: items)
  | word (w : String) {items : List Item} (h : w ≠ stringWord) (rest : Runs word items) : Runs word (.word w :: items)
  | text (text : String) {items : List Item} (rest : Runs word items) :
    Runs word (.word stringWord :: .word text :: items)
  | inside (b : Body) {items : List Item} (inner : Runs word b.items) : Runs word (.block b :: items)
  | block (b : Body) {items : List Item} (rest : Runs word items) : Runs word (.block b :: items)

/-- checked items that neither open a definition nor use the hidden word -/
abbrev Computes (hidden : String) : List String → List Item → Prop := Formed fun _ word => word ≠ ":" ∧ word ≠ hidden

theorem WellFormed.computes {d : Dictionary} {scope : List String} {items : List Item} {hidden : String}
    (h : WellFormed d scope items) (hcolon : ¬ Runs ":" items) (hhidden : ¬ Runs hidden items) :
    Computes hidden scope items := by
  induction h with
  | nil scope => exact .nil scope
  | text text unquoted rest ih =>
    exact .text text unquoted (ih (fun hr => hcolon (.text text hr)) fun hr => hhidden (.text text hr))
  | word word plain known rest ih =>
    have hword := ne_stringWord plain
    refine .word word plain ⟨?_, ?_⟩
      (ih (fun hr => hcolon (.word word hword hr)) fun hr => hhidden (.word word hword hr))
    · rintro rfl
      exact hcolon (.here hword)
    · rintro rfl
      exact hhidden (.here hword)
  | loop ident fit inner rest ihInner ihRest =>
    exact .loop ident fit (ihInner (fun hr => hcolon (.inside _ hr)) fun hr => hhidden (.inside _ hr))
      (ihRest (fun hr => hcolon (.block _ hr)) fun hr => hhidden (.block _ hr))

theorem Captures.formed {ok ok' : List String → String → Prop} {scope : List String} {s rest : List Char}
    {items : List Item} (h : Captures ok scope s items rest) (hok : ∀ scope word, ok scope word → ok' scope word) :
    Formed ok' scope items := by
  induction h with
  | done scope s => exact .nil scope
  | word word read nonempty plain allowed tail ih => exact .word word plain (hok _ word allowed) ih
  | comment read text tail ih => exact ih
  | literal read text tail ih =>
    exact .text _ (by simpa using (Token.takeUntil_eq_some_iff.1 text).2) ih
  | loop ident read name fit inner next tail ihInner ihTail => exact .loop ident fit ihInner ihTail

/-! ## Machines side by side -/

/-- where two machines run side by side -/
structure Place where
  /-- the dictionary of the called machine and that of the direct one -/
  extended : Dictionary
  known : Dictionary
  /-- the scopes of the direct machine, and those that the called one has below them -/
  scopes : List (List (String × Value))
  below : List (List (String × Value))
  /-- what is left of the line of the direct machine -/
  input : List Char
  limit : Nat
  /-- the calls around the called machine, and those around the direct one -/
  deeper : Nat
  depth : Nat

/-- the called machine differs where it cannot be noticed: but for the hidden word it has the same words, which compute
only -/
structure Place.Fits (hidden : String) (p : Place) : Prop where
  extended : p.extended.Built natives
  known : p.known.Built natives
  body?_eq : ∀ name, name ≠ hidden → p.extended.body? name = p.known.body? name
  bodies : ∀ name b, p.known.body? name = some b →
    CompileWord.ofName? name = none ∧ b.kind = .word ∧ Computes hidden [] b.items
  below : ∀ scope ∈ p.below, scope = []
  depth : p.depth ≤ p.deeper

/-- the called machine and the direct one at a place -/
structure Alike (p : Place) (v d : Machine) : Prop where
  stack : v.stack = d.stack
  seed : v.seed = d.seed
  tracing : v.tracing = d.tracing
  extended : v.dictionary = p.extended
  known : d.dictionary = p.known
  idle : v.compilation = {} ∧ d.compilation = {}
  below : v.scopes = p.scopes ++ p.below
  scopes : d.scopes = p.scopes
  input : d.input = p.input
  limit : v.maxCallDepth = p.limit ∧ d.maxCallDepth = p.limit
  deeper : v.callDepth = p.deeper
  depth : d.callDepth = p.depth

/-- results of the called machine and of the direct one: machines that are related, two faults with the same stack, or
a call that the called machine is refused -/
abbrev Agree {α : Type} (R : Machine → Machine → Prop) (r r' : EStateM.Result Fault Machine α) : Prop :=
  Outcomes R (fun _ v _ d => v.stack = d.stack) (fun f => ∃ word limit, f = .callDepth word limit) r r'

variable {hidden : String} {p : Place} {v d : Machine}

namespace Alike

/-- neither machine is inside a compilation -/
theorem isCompiling (h : Alike p v d) : v.isCompiling = false ∧ d.isCompiling = false := by
  simp [Machine.isCompiling, h.idle.1, h.idle.2, Compilation.isActive]

theorem ofEffect {α : Type} {x : Effect α} (h : Alike p v d) :
    Agree (Alike p) (MachineM.ofEffect x v) (MachineM.ofEffect x d) := by
  unfold MachineM.ofEffect
  rw [h.stack]
  cases x d.stack with
  | ok a s => exact .ok a { h with stack := rfl }
  | error f s => exact .error rfl

theorem update {f : Machine → Machine} (hf : Update f) (h : Alike p v d) : Alike p (f v) (f d) := by
  cases hf with
  | advance => exact { h with seed := congrArg Random.advance h.seed }
  | reseed k => exact { h with seed := rfl }
  | tracing on => exact { h with tracing := rfl }
  | record e => exact { h with }

/-- scopes that bind nothing are not noticed -/
theorem findLocal?_eq (hp : p.Fits hidden) (h : Alike p v d) (word : String) :
    d.findLocal? word = v.findLocal? word := by
  have hbelow : p.below.findSome? (Keyed.find? word) = none := by
    rw [List.findSome?_eq_none_iff]
    intro scope hscope
    rw [hp.below scope hscope]
    rfl
  rw [Machine.findLocal?, Machine.findLocal?, h.below, h.scopes, List.findSome?_append, hbelow, Option.or_none]

theorem body?_eq (hp : p.Fits hidden) (h : Alike p v d) {word : String} (hother : word ≠ hidden) :
    v.dictionary.body? word = p.known.body? word := by
  rw [h.extended, hp.body?_eq word hother]

end Alike

/-- the direct machine settles what it did, the called one is still inside the word -/
theorem Agree.settledRight {r s : EStateM.Result Fault Machine Unit} (word : String) (h : Agree (Alike p) r s) :
    Agree (Alike p) r (settled word s) := by
  cases h with
  | @ok _ v d h =>
    obtain ⟨status, log, hd⟩ := d.settle_none word
    rw [settled_ok, hd]
    exact .ok () { h with }
  | @error f g v d h =>
    obtain ⟨status, log, hd⟩ := d.settle_some word g
    rw [settled_error, hd]
    exact .error h
  | cut h => exact .cut h

/-- the called machine reads from another line -/
theorem Agree.withInputLeft {x : MachineM Unit} {text : List Char} {r : EStateM.Result Fault Machine Unit}
    (h : Agree (Alike p) (x { v with input := text }) r) : Agree (Alike p) (Machine.withInput text x v) r := by
  rw [withInput_eq]
  generalize x { v with input := text } = s at h ⊢
  cases h with
  | ok a h => exact .ok () { h with }
  | error h => exact .error h
  | cut h => exact .cut h

/-- the direct machine reads from another line and returns to its own -/
theorem Agree.withInputRight {x : MachineM Unit} {text input : List Char} {r : EStateM.Result Fault Machine Unit}
    (hinput : d.input = p.input) (h : Agree (Alike { p with input }) r (x { d with input := text })) :
    Agree (Alike p) r (Machine.withInput text x d) := by
  rw [withInput_eq]
  generalize x { d with input := text } = s at h ⊢
  cases h with
  | ok a h => exact .ok () { h with input := hinput }
  | error h => exact .error h
  | cut h => exact .cut h

/-! ## Words -/

theorem isStructural_of_mem_natives :
    ∀ e ∈ natives, e.2.isStructural = true → e.1 = ":" ∨ (CompileWord.ofName? e.1).isSome = true := by
  decide +kernel

/-- machines that are alike, compared: no body is opened, and no text is taken from the line -/
abbrev Place.comparison (hidden : String) (p : Place) : Comparison where
  rel := Alike p
  fails _ v _ d := v.stack = d.stack
  cut f := ∃ word limit, f = .callDepth word limit
  word _ word := CompileWord.ofName? word = none ∧ word ≠ ":" ∧ word ≠ hidden
  structural := False
  line := False
  host := False

theorem Place.Fits.lawful (hp : p.Fits hidden) : (p.comparison hidden).Lawful where
  compilation h := by rw [h.idle.1, h.idle.2]
  seed h := h.seed.symm
  events h := by rw [h.stack]
  findLocal? h word := h.findLocal?_eq hp word
  lookup h hword := by
    rw [h.extended, h.known, h.stack, hp.extended.lookup_eq, hp.known.lookup_eq, hp.body?_eq _ hword.2.2]
  contains h hword := by
    rw [h.extended, h.known, Bool.eq_iff_iff, hp.extended.contains_iff, hp.known.contains_iff,
      hp.body?_eq _ hword.2.2]
  found {v d word x} h hword hx := by
    rw [h.extended] at hx
    rcases hp.extended.lookup_cases hx with hnative | ⟨b, hb, rfl⟩
    · refine .inr (.inl ⟨isNative_of_mem_natives _ hnative, .inr ?_⟩)
      rw [← Bool.not_eq_true]
      intro hstructural
      rcases isStructural_of_mem_natives _ hnative hstructural with hcolon | hacts
      · exact hword.2.1 hcolon
      · rw [hword.1] at hacts
        cases hacts
    · exact .inr (.inr ⟨b, rfl, h.extended ▸ hb⟩)
  idle h hactive := by
    rw [h.isCompiling.1] at hactive
    cases hactive
  hosted := False.elim
  effect _ h := h.ofEffect
  update hf h := h.update hf
  edit := False.elim
  taken := False.elim
  untaken := False.elim
  read := False.elim
  clean _ h := h.stack
  unread h _ _ := h.stack
  unknown h _ _ _ := h.stack
  raised := False.elim
  traced {v d} h word := by
    obtain ⟨log, hv⟩ := v.traced_eq (.word word (String.ofList v.input))
    obtain ⟨log', hd⟩ := d.traced_eq (.word word (String.ofList d.input))
    rw [hv, hd]
    exact { h with }
  settle {v d} h word := by
    obtain ⟨status, log, hv⟩ := v.settle_none word
    obtain ⟨status', log', hd⟩ := d.settle_none word
    rw [hv, hd]
    exact { h with }
  settleFault {f v g d} h word := by
    obtain ⟨status, log, hv⟩ := v.settle_some word f
    obtain ⟨status', log', hd⟩ := d.settle_some word g
    rw [hv, hd]
    exact .inl h

/-- the calls that both machines may make agree -/
def CallsAlike (p : Place) (av ad : Answer) : Prop :=
  ∀ name b, p.known.body? name = some b → ∀ v d, Alike p v d → Agree (Alike p) (av (.body b) v) (ad (.body b) d)

theorem evalWord_alike (hp : p.Fits hidden) {word : String} (plain : CompileWord.ofName? word = none)
    (computes : word ≠ ":") (other : word ≠ hidden) {av ad : Answer} (hcalls : CallsAlike p av ad) (h : Alike p v d) :
    Agree (Alike p) (evalWord av word v) (evalWord ad word d) := by
  refine hp.lawful.evalWord ⟨?_, ?_, False.elim⟩ ⟨plain, computes, other⟩ h
  · intro v d word b h hword hb
    exact hcalls word b (h.body?_eq hp hword.2.2 ▸ hb) v d h
  · intro v d word b h _ hframes
    rw [h.idle.1] at hframes
    cases hframes

/-- a text that the called machine finds in a body and the direct one in its line -/
theorem runItemString_alike_evalWord (hp : p.Fits hidden) (av ad : Answer) (h : Alike p v d) {taken rest : List Char}
    (htext : Token.takeUntil '"' d.input = some (taken, rest)) :
    Agree (Alike { p with input := rest }) (runItemString av (String.ofList taken) v) (evalWord ad stringWord d) := by
  have hunquoted := (Token.takeUntil_eq_some_iff.1 htext).2
  obtain ⟨log, hv⟩ := evalWord_string av (m := { v with input := taken ++ ['"'] }) (h.extended ▸ hp.extended)
    h.isCompiling.1 (Token.takeUntil_eq_some_iff.2 ⟨rfl, hunquoted⟩)
  obtain ⟨log', hd⟩ := evalWord_string ad (h.known ▸ hp.known) h.isCompiling.2 htext
  refine .withInputLeft ?_
  rw [String.toList_ofList, hv, hd]
  have hlawful := Place.Fits.lawful (p := { p with input := rest }) { hp with }
  have halike : Alike { p with input := rest } { v with input := [], log } { d with input := rest, log := log' } :=
    { h with input := rfl }
  exact hlawful.settled (hlawful.push halike _) stringWord

theorem runItemString_alike (hp : p.Fits hidden) {text : String} (unquoted : '"' ∉ text.toList) (av ad : Answer)
    (h : Alike p v d) : Agree (Alike p) (runItemString av text v) (runItemString ad text d) := by
  have hline := runItemString_alike_evalWord (p := { p with input := text.toList ++ ['"'] })
    (d := { d with input := text.toList ++ ['"'] }) { hp with } av ad { h with input := rfl }
    (Token.takeUntil_eq_some_iff.2 ⟨rfl, unquoted⟩)
  rw [String.ofList_toList] at hline
  exact .withInputRight h.input hline

theorem runItemWord_alike (hp : p.Fits hidden) {word : String} (plain : CompileWord.ofName? word = none)
    (computes : word ≠ ":") (other : word ≠ hidden) {av ad : Answer}
    (hcalls : CallsAlike { p with input := [] } av ad) (h : Alike p v d) :
    Agree (Alike p) (runItemWord av word v) (runItemWord ad word d) := by
  refine hp.lawful.runItemWord h fun _ => ?_
  have hword := evalWord_alike (p := { p with input := [] }) (v := { v with input := [] })
    (d := { d with input := [] }) { hp with } plain computes other hcalls { h with input := rfl }
  exact Agree.withInputLeft (Agree.withInputRight h.input hword)

/-! ## Loops and calls -/

/-- the place inside a loop, where the innermost scope is the one given -/
def Place.inLoop (p : Place) (top : List (String × Value)) : Place := { p with scopes := top :: p.scopes }

/-- the place inside a call -/
def Place.inCall (p : Place) (b : Body) : Place :=
  { p with scopes := [b.locals], below := [], deeper := p.deeper + 1, depth := p.depth + 1 }

/-- the variable is bound in the innermost scope of both machines -/
theorem Alike.bindLocal {top : List (String × Value)} (h : Alike (p.inLoop top) v d) (ident : String) (value : Value) :
    Alike (p.inLoop (Keyed.insert ident value top)) (v.bindLocal ident value) (d.bindLocal ident value) := by
  have hv : v.scopes = top :: (p.scopes ++ p.below) := h.below
  have hd : d.scopes = top :: p.scopes := h.scopes
  rw [Machine.bindLocal_eq hv, Machine.bindLocal_eq hd]
  exact { h with below := rfl, scopes := rfl }

theorem inLoop_alike {b : Body} {x y : MachineM Unit}
    (hxy : ∀ top v d, Alike (p.inLoop top) v d → Agree (Alike (p.inLoop top)) (x v) (y d)) (h : Alike p v d) :
    Agree (Alike p) (inLoop b x v) (inLoop b y d) := by
  refine inLoop_outcomes (S := fun v d => ∃ top, Alike (p.inLoop top) v d) (G := fun _ v _ d => v.stack = d.stack)
    h.ofEffect (fun v d h => ⟨b.locals, ?_⟩) ?_ ?_ ?_ fun _ _ _ _ => id
  · exact { h with below := by rw [h.below]; rfl, scopes := by rw [h.scopes]; rfl }
  · rintro value v d ⟨top, h⟩
    exact (hxy _ _ _ (h.bindLocal b.ident value)).imp (fun _ _ h => ⟨_, h⟩) (fun _ _ _ _ => id) fun _ => id
  · rintro count v d ⟨top, h⟩
    exact h.stack
  · rintro v d ⟨top, h⟩
    exact { h with below := by rw [h.below]; rfl, scopes := by rw [h.scopes]; rfl }

/-- where the called machine is not refused a call, the direct one is not either -/
theorem inCall_alike {b : Body} {x y : MachineM Unit} (hdepth : p.depth ≤ p.deeper)
    (hxy : p.deeper < p.limit → ∀ v d, Alike (p.inCall b) v d → Agree (Alike (p.inCall b)) (x v) (y d))
    (h : Alike p v d) : Agree (Alike p) (inCall b x v) (inCall b y d) := by
  refine inCall_outcomes (S := Alike (p.inCall b)) (G := fun _ v _ d => v.stack = d.stack)
    (fun _ => .inl ⟨_, _, rfl⟩) (fun hroom => ?_) (fun hroom => ?_) (fun v' d' h' => ?_) fun _ _ _ _ => id
  · rw [h.limit.2, h.depth]
    rw [h.limit.1, h.deeper] at hroom
    omega
  · rw [h.limit.1, h.deeper] at hroom
    exact hxy hroom _ _
      { h with below := rfl, scopes := rfl, deeper := by rw [h.deeper]; rfl, depth := by rw [h.depth]; rfl }
  · exact { h' with
      below := h.below, scopes := h.scopes
      deeper := by rw [h'.deeper]; rfl
      depth := by rw [h'.depth]; rfl }

/-! ## Items, whatever they call -/

/-- steps that agree wherever both nestings allow all calls that the limit does -/
def StepsAlike (hidden : String) (k n : Nat) (x y : MachineM Unit) : Prop :=
  ∀ ⦃p : Place⦄, p.Fits hidden → p.limit - p.deeper < k → p.limit - p.depth < n → ∀ ⦃v d : Machine⦄, Alike p v d →
    Agree (Alike p) (x v) (y d)

/-- items that compute agree -/
def ItemsAlike (hidden : String) (k n : Nat) : Prop :=
  ∀ ⦃scope : List String⦄ ⦃items : List Item⦄, Computes hidden scope items →
    StepsAlike hidden k n (runItems (answerUpTo k) items) (runItems (answerUpTo n) items)

theorem ItemsAlike.calls {k n : Nat} (h : ItemsAlike hidden k n) (hp : p.Fits hidden)
    (hdeeper : p.limit - p.deeper < k + 1)
    (hdepth : p.limit - p.depth < n + 1) : CallsAlike p (answerUpTo (k + 1)) (answerUpTo (n + 1)) := by
  intro name b hb v d halike
  obtain ⟨-, hkind, hitems⟩ := hp.bodies name b hb
  change Agree (Alike p) (runBody (answerUpTo k) b v) (runBody (answerUpTo n) b d)
  rw [runBody_word hkind, runBody_word hkind]
  refine inCall_alike hp.depth (fun hroom v d hinside => ?_) halike
  have hp' : (p.inCall b).Fits hidden :=
    { hp with below := fun _ hs => absurd hs List.not_mem_nil, depth := Nat.succ_le_succ hp.depth }
  refine h hitems hp' ?_ ?_ hinside
  · change p.limit - (p.deeper + 1) < k
    omega
  · change p.limit - (p.depth + 1) < n
    have := hp.depth
    omega

/-- **Agreement.** Items that compute agree on machines that are alike, whatever they call. -/
theorem runItems_alike (hidden : String) (k n : Nat) : ItemsAlike hidden k n := by
  induction k generalizing n with
  | zero => exact fun _ _ _ _ _ hdeeper => absurd hdeeper (by omega)
  | succ k ih =>
    intro scope items hitems p hp hdeeper hdepth
    obtain ⟨n, rfl⟩ : ∃ j, n = j + 1 := ⟨n - 1, by omega⟩
    have hrelated : Runner.RelatedOn (fun _ word => word ≠ ":" ∧ word ≠ hidden) (Runner.evaluating (answerUpTo (k + 1)))
        (Runner.evaluating (answerUpTo (n + 1))) (fun _ => StepsAlike hidden (k + 1) (n + 1)) := {
      nil := fun _ _ _ _ _ _ _ h => .ok () h
      seq := fun hx hx' _ hp hdeeper hdepth _ _ h =>
        (hx hp hdeeper hdepth h).bind fun _ _ _ h => hx' hp hdeeper hdepth h
      word := fun plain computes p hp hdeeper hdepth _ _ h =>
        runItemWord_alike hp plain computes.1 computes.2
          ((ih n).calls (p := { p with input := [] }) { hp with } hdeeper hdepth) h
      text := fun unquoted _ hp _ _ _ _ h => runItemString_alike hp unquoted _ _ h
      loop := fun _ hitems p hp hdeeper hdepth _ _ h =>
        inLoop_alike (fun top _ _ hinside => hitems (p := p.inLoop top) { hp with } hdeeper hdepth hinside) h }
    exact hrelated.runItems hitems hp hdeeper hdepth

end ReversePolish
