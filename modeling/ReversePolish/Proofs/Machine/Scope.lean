/-
Names in a body mean what the body says.

A word that a body contains is first looked up in all scopes there are. Here bodies are run once more with the look-up
settled by the text of the body: only a name that the body itself binds, as a local or as the variable of a loop around
the word, is looked up in the scopes, and any other word goes to the dictionary at once (`runBodyLexically`). Results:
- `runBodyLexically_eq`, `answerLexically_eq`: that makes no difference, however deep calls and loops nest, because the
  scopes of a running body bind no other names;
- `call_ignores_scopes`: what the caller has bound has no influence on a call, and the call none on it.
-/
import ReversePolish.Proofs.Machine.Balance

namespace ReversePolish

/-! ## Look-up by the text of the body -/

/-- a word of a body, where these names are bound around it -/
def runItemWordLexically (answer : Answer) (bound : String → Bool) (word : String) : MachineM Unit :=
  if bound word then runItemWord answer word else Machine.withInput [] (evalWord answer word)

/-- bodies are run inside bodies that bind these names: a word starts again from its own locals, a loop adds its
variable and its locals -/
def Runner.lexical (answer : Answer) : Runner (ReaderT (String → Bool) MachineM) where
  word word bound := runItemWordLexically answer bound word
  text text _ := runItemString answer text
  body b items bound :=
    match b.kind with
    | .word => inCall b (items (Keyed.contains · b.locals))
    | .loop => inLoop b (items fun name => bound name || b.binds name)

/-- runs a body inside bodies that bind these names -/
def runBodyLexically (answer : Answer) (bound : String → Bool) (b : Body) : MachineM Unit :=
  (Runner.lexical answer).runBody b bound

/-- runs items inside bodies that bind these names -/
def runItemsLexically (answer : Answer) (bound : String → Bool) (items : List Item) : MachineM Unit :=
  (Runner.lexical answer).runItems items bound

/-- answers requests that nest at most n deep; a loop that a word asks for may find any name in the scopes -/
def answerLexically : Nat → Answer
  | 0, _ => throw .nesting
  | n + 1, .body b => runBodyLexically (answerLexically n) (fun _ => true) b
  | n + 1, .line text => evalLine (answerLexically n) text

/-! ## What the scopes of a running body bind -/

/-- the scopes bind no names but these -/
def Machine.BindsOnly (bound : String → Bool) (m : Machine) : Prop :=
  ∀ name, bound name = false → m.findLocal? name = none

/-- the scope of a loop binds its locals and its variable -/
theorem LoopScope.find?_eq_none {b : Body} {top : List (String × Value)} (h : LoopScope b top)
    {name : String} (hname : b.binds name = false) : Keyed.find? name top = none := by
  obtain ⟨hident, hlocals⟩ := Bool.or_eq_false_iff.1 hname
  induction h with
  | start => exact Option.isSome_eq_false_iff.1 hlocals |> Option.isNone_iff_eq_none.1
  | bind h v ih => rw [Keyed.find?_insert, if_neg (by simpa using hident), ih]

namespace Machine.BindsOnly

variable {bound : String → Bool} {m m' : Machine}

theorem stable (bound : String → Bool) : Stable (Machine.BindsOnly bound) := by
  intro m m' hev h name hname
  rw [Machine.findLocal?, hev.scopes]
  exact h name hname

/-- the scopes of a call bind the locals of the word -/
theorem call (m : Machine) (b : Body) (depth : Nat) :
    { m with callDepth := depth, scopes := [b.locals] }.BindsOnly (Keyed.contains · b.locals) := by
  intro name hname
  have hfree : Keyed.find? name b.locals = none := Option.isSome_eq_false_iff.1 hname |> Option.isNone_iff_eq_none.1
  simp [Machine.findLocal?, hfree]

/-- the scopes of a loop bind its locals and its variable besides what is bound around it -/
theorem loop (h : m.BindsOnly bound) {b : Body} {top : List (String × Value)} (htop : LoopScope b top) {v : Value}
    (hs : m'.scopes = Keyed.insert b.ident v top :: m.scopes) :
    m'.BindsOnly (fun name => bound name || b.binds name) := by
  intro name hname
  obtain ⟨houter, hinner⟩ := Bool.or_eq_false_iff.1 hname
  rw [Machine.findLocal?, hs, List.findSome?_cons, (htop.bind v).find?_eq_none hinner]
  exact h name houter

end Machine.BindsOnly

/-! ## Both look-ups agree -/

section Bodies

variable {answer : Answer} {bound : String → Bool}

theorem runItemWordLexically_eq {m : Machine} (h : m.BindsOnly bound) (word : String) :
    runItemWordLexically answer bound word m = runItemWord answer word m := by
  unfold runItemWordLexically
  split
  · rfl
  · rename_i hfree
    rw [runItemWord_global (h word (by simpa using hfree))]

/-- the steps do the same wherever the scopes bind no names but these -/
abbrev CoincideOn (bound : String → Bool) (x y : MachineM Unit) : Prop :=
  Coincide (Machine.BindsOnly bound) AnyFault x y

theorem inLoop_lexically {x y : MachineM Unit} {b : Body}
    (hxy : CoincideOn (fun name => bound name || b.binds name) x y) : CoincideOn bound (inLoop b x) (inLoop b y) :=
  hxy.inLoop (.ofEffect _) (fun _ => trivial) fun _ _ _ _ hm _ htop hs => hm.loop htop hs

/-- a call starts from the locals of the word, whatever is bound around it -/
theorem inCall_lexically {x y : MachineM Unit} {b : Body} (hxy : CoincideOn (Keyed.contains · b.locals) x y)
    (P : Machine → Prop) : Coincide P AnyFault (inCall b x) (inCall b y) :=
  hxy.inCall (fun _ => trivial) fun m _ _ => .call m b (m.callDepth + 1)

theorem lexical_related (hanswer : ∀ r, Evolving (answer r)) :
    Runner.Related (Runner.lexical answer) (Runner.evaluating answer)
      fun x y => ∀ bound, CoincideOn bound (x bound) y where
  nil _ := .pure _
  seq hx hx' bound := .bind (.stable bound) (hx bound) fun _ => hx' bound
  missing _ := .throw trivial
  word word bound := by
    change CoincideOn bound (runItemWordLexically answer bound word) (runItemWord answer word)
    intro m hm
    rw [runItemWordLexically_eq hm]
    exact ⟨rfl, runItemWord_evolves hanswer word m, fun _ _ => trivial⟩
  text text _ := (runItemString_evolves hanswer text).coincide _
  body b x y hxy bound := by
    simp only [Runner.lexical, Runner.evaluating, inBody]
    cases b.kind with
    | word => exact inCall_lexically (hxy _) _
    | loop => exact inLoop_lexically (hxy _)

end Bodies

/-- the text of a body settles what its names mean -/
theorem runBodyLexically_eq {answer : Answer} (hanswer : ∀ r, Evolving (answer r)) {bound : String → Bool} (b : Body)
    {m : Machine} (h : m.BindsOnly bound) : runBodyLexically answer bound b m = runBody answer b m :=
  (((lexical_related hanswer).runBody b bound).eq h).symm

theorem runBodyLexically_word {answer : Answer} {bound : String → Bool} {b : Body} (h : b.kind = .word) :
    runBodyLexically answer bound b = inCall b (runItemsLexically answer (Keyed.contains · b.locals) b.items) := by
  rw [runBodyLexically, Runner.runBody_eq]
  simp only [Runner.lexical, h]
  rfl

theorem answerLexically_eq (n : Nat) : answerLexically n = answerUpTo n := by
  induction n with
  | zero => rfl
  | succ n ih =>
    funext r m
    cases r with
    | body b =>
      unfold answerLexically answerUpTo
      rw [ih]
      exact runBodyLexically_eq (answerUpTo_evolves n) b (fun name hname => by cases hname)
    | line text =>
      unfold answerLexically answerUpTo
      rw [ih]

/-! ## Calls -/

/-- the machines differ in their scopes at most -/
def SameButScopes (m n : Machine) : Prop := n = { m with scopes := n.scopes }

theorem inCall_sameButScopes {m n : Machine} (h : SameButScopes m n) (b : Body) (x : MachineM Unit) :
    (inCall b x n).error? = (inCall b x m).error? ∧ SameButScopes (inCall b x m).state (inCall b x n).state := by
  unfold SameButScopes at h
  generalize n.scopes = scopes at h
  subst h
  unfold inCall
  dsimp only
  split
  · exact ⟨rfl, rfl⟩
  · cases x { m with callDepth := m.callDepth + 1, scopes := [b.locals] } <;> exact ⟨rfl, rfl⟩

/-- **Locals of the caller.** Called on two machines that differ in their scopes at most, a word ends with the same
result on both, and the machines then differ in their scopes at most, each having its own scopes as before. Whatever
names the caller binds, in the word and in everything that it calls a name means what the text of the body around it
says. -/
theorem call_ignores_scopes {m n : Machine} (h : SameButScopes m n) {b : Body} (hb : b.kind = .word) :
    (Machine.run b n).error? = (Machine.run b m).error? ∧
      SameButScopes (Machine.run b m).state (Machine.run b n).state ∧
      (Machine.run b m).state.scopes = m.scopes ∧ (Machine.run b n).state.scopes = n.scopes ∧
      (∀ bound, Machine.run b m = runBodyLexically (answerLexically m.allowance) bound b m) := by
  have hallowance : n.allowance = m.allowance := by
    rw [h]
    rfl
  have hrun (m : Machine) : Machine.run b m = inCall b (runItems (answerUpTo m.allowance) b.items) m := by
    unfold Machine.run
    rw [runBody_word hb]
  obtain ⟨herror, hstate⟩ := inCall_sameButScopes h b (runItems (answerUpTo m.allowance) b.items)
  rw [← hrun m] at herror hstate
  rw [← hallowance, ← hrun n] at herror hstate
  refine ⟨herror, hstate, (run_evolves b m).scopes, (run_evolves b n).scopes, fun bound => ?_⟩
  have hitems := (lexical_related (answerUpTo_evolves m.allowance)).runItems b.items (Keyed.contains · b.locals)
  rw [answerLexically_eq, runBodyLexically_word hb, hrun]
  exact (inCall_lexically hitems fun _ => True).eq trivial

/-- a word that loops over i and then asks for i, called where i is bound to 7 and where it is not -/
theorem call_ignores_scopes_variable :
    ∃ b n, b = ⟨.word, "W", [.word "0", .word "2", .block ⟨.loop, "i", [.word "i"], []⟩, .word "i"], []⟩ ∧
      n = { scopes := [[("i", .double 7.0)]] } ∧ SameButScopes {} n ∧
      (Machine.run b n).error? = (Machine.run b {}).error? ∧
      (Machine.run b n).state.stack = (Machine.run b {}).state.stack ∧
      (Machine.run b n).state.findLocal? "i" = some (.double 7.0) := by
  refine ⟨_, _, rfl, rfl, rfl, ?_⟩
  obtain ⟨herror, hstate, -, hscopes, -⟩ := call_ignores_scopes
    (m := {}) (n := { scopes := [[("i", .double 7.0)]] }) rfl
    (b := ⟨.word, "W", [.word "0", .word "2", .block ⟨.loop, "i", [.word "i"], []⟩, .word "i"], []⟩) rfl
  refine ⟨herror, by rw [hstate], ?_⟩
  rw [Machine.findLocal?, hscopes]
  rfl

end ReversePolish
