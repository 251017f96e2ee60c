/-
Items of a body, run one after the other by any runner.

The recursion over items is walked here once. A relation between what two runners do, perhaps in different monads, is
carried from words, texts and bodies to items. Results:
- `Item.induction`: the cases of a list of items, as they are run;
- `Runner.Related.runItems`: two runners side by side, on any items;
- `Runner.RelatedOn.runItems`: the same on `Formed` items, whose words are checked for the names bound around them.
-/
import ReversePolish.Proofs.Machine.Step

namespace ReversePolish

/-! ## Items -/

section Induction

variable {P : List Item → Prop} (nil : P []) (block : ∀ b rest, P b.items → P rest → P (.block b :: rest))
  (text : ∀ text rest, P rest → P (.word stringWord :: .word text :: rest))
  (missing : ∀ rest, (∀ text others, rest ≠ .word text :: others) → P (.word stringWord :: rest))
  (word : ∀ word rest, word ≠ stringWord → P rest → P (.word word :: rest))

include nil block text missing word

/-- the cases of a list of items: a body, a text, a text that is missing, or a word -/
theorem Item.induction : ∀ items : List Item, P items
  | [] => nil
  | .block ⟨kind, ident, inner, locals⟩ :: rest =>
    block ⟨kind, ident, inner, locals⟩ rest (Item.induction inner) (Item.induction rest)
  | .word w :: rest => by
    by_cases hw : w = stringWord
    · subst hw
      cases rest with
      | nil => exact missing [] (by simp)
      | cons item rest =>
        cases item with
        | block b => exact missing _ (by simp)
        | word t => exact text t rest (Item.induction rest)
    · exact word w rest hw (Item.induction rest)

end Induction

/-- Items as the checks of a definition leave them: every text has no quote in it, every other word is `ok` for the
names bound around it, and a loop binds its variable and has no locals. -/
inductive Formed (ok : List String → String → Prop) : List String → List Item → Prop
  | nil (scope : List String) : Formed ok scope []
  | text {scope : List String} (text : String) {items : List Item} (unquoted : '"' ∉ text.toList)
    (rest : Formed ok scope items) : Formed ok scope (.word stringWord :: .word text :: items)
  | word {scope : List String} (word : String) {items : List Item} (plain : CompileWord.ofName? word = none)
    (known : ok scope word) (rest : Formed ok scope items) : Formed ok scope (.word word :: items)
  | loop {scope : List String} (ident : String) {body items : List Item} (fit : IsName ident)
    (inner : Formed ok (ident :: scope) body) (rest : Formed ok scope items) :
    Formed ok scope (.block ⟨.loop, ident, body, []⟩ :: items)

/-! ## Runners -/

namespace Runner

variable {M N : Type → Type} [Monad M] [MonadExceptOf Fault M] [Monad N] [MonadExceptOf Fault N]

section Equations

variable (r : Runner M)

theorem runBody_eq (b : Body) : r.runBody b = r.body b (r.runItems b.items) := by
  cases b
  rw [runBody]

theorem runItems_nil : r.runItems [] = pure () := by rw [runItems]

theorem runItems_text (text : String) (items : List Item) :
    r.runItems (.word stringWord :: .word text :: items) = (do r.text text; r.runItems items) := by
  rw [runItems, if_pos rfl]

theorem runItems_missing {items : List Item} (h : ∀ text rest, items ≠ .word text :: rest) :
    r.runItems (.word stringWord :: items) = throw .missingLiteral := by
  rw [runItems.eq_def]
  cases items with
  | nil => exact if_pos rfl
  | cons item rest =>
    cases item with
    | block b => exact if_pos rfl
    | word text => exact absurd rfl (h text rest)

theorem runItems_word {word : String} (h : word ≠ stringWord) (items : List Item) :
    r.runItems (.word word :: items) = (do r.word word; r.runItems items) := by
  rw [runItems.eq_def]
  exact if_neg h

theorem runItems_block (b : Body) (items : List Item) :
    r.runItems (.block b :: items) = (do r.runBody b; r.runItems items) := by
  rw [runItems]

end Equations

/-- what both runners do with words and texts is related, and bodies keep the relation -/
structure Related (r : Runner M) (s : Runner N) (J : M Unit → N Unit → Prop) : Prop where
  nil : J (pure ()) (pure ())
  seq : ∀ {x x' : M Unit} {y y' : N Unit}, J x y → J x' y' → J (do x; x') (do y; y')
  missing : J (throw .missingLiteral) (throw .missingLiteral)
  word : ∀ word, J (r.word word) (s.word word)
  text : ∀ text, J (r.text text) (s.text text)
  body : ∀ b {x : M Unit} {y : N Unit}, J x y → J (r.body b x) (s.body b y)

section Related

variable {r : Runner M} {s : Runner N} {J : M Unit → N Unit → Prop}

/-- **Any items.** What is related on words, texts and bodies is related on items. -/
theorem Related.runItems (h : Related r s J) (items : List Item) : J (r.runItems items) (s.runItems items) := by
  induction items using Item.induction with
  | nil =>
    rw [runItems_nil, runItems_nil]
    exact h.nil
  | block b rest ihBody ihRest =>
    rw [runItems_block, runItems_block, runBody_eq, runBody_eq]
    exact h.seq (h.body b ihBody) ihRest
  | text text rest ih =>
    rw [runItems_text, runItems_text]
    exact h.seq (h.text text) ih
  | missing rest hmissing =>
    rw [runItems_missing r hmissing, runItems_missing s hmissing]
    exact h.missing
  | word word rest hword ih =>
    rw [runItems_word r hword, runItems_word s hword]
    exact h.seq (h.word word) ih

theorem Related.runBody (h : Related r s J) (b : Body) : J (r.runBody b) (s.runBody b) := by
  rw [runBody_eq, runBody_eq]
  exact h.body b (h.runItems b.items)

end Related

/-- the relation may depend on the names that are bound around the items -/
structure RelatedOn (ok : List String → String → Prop) (r : Runner M) (s : Runner N)
    (J : List String → M Unit → N Unit → Prop) : Prop where
  nil : ∀ scope, J scope (pure ()) (pure ())
  seq : ∀ {scope} {x x' : M Unit} {y y' : N Unit}, J scope x y → J scope x' y' → J scope (do x; x') (do y; y')
  word : ∀ {scope word}, CompileWord.ofName? word = none → ok scope word → J scope (r.word word) (s.word word)
  text : ∀ {scope} {text : String}, '"' ∉ text.toList → J scope (r.text text) (s.text text)
  loop : ∀ {scope ident} {items : List Item}, IsName ident → J (ident :: scope) (r.runItems items) (s.runItems items) →
    J scope (r.body ⟨.loop, ident, items, []⟩ (r.runItems items)) (s.body ⟨.loop, ident, items, []⟩ (s.runItems items))

/-- **Checked items.** What is related on checked words, on texts and on loops is related on checked items. -/
theorem RelatedOn.runItems {ok : List String → String → Prop} {r : Runner M} {s : Runner N}
    {J : List String → M Unit → N Unit → Prop} (h : RelatedOn ok r s J) {scope : List String} {items : List Item}
    (hitems : Formed ok scope items) : J scope (r.runItems items) (s.runItems items) := by
  induction hitems with
  | nil scope =>
    rw [runItems_nil, runItems_nil]
    exact h.nil scope
  | text text unquoted rest ih =>
    rw [runItems_text, runItems_text]
    exact h.seq (h.text unquoted) ih
  | word word plain known rest ih =>
    rw [runItems_word r (ne_stringWord plain), runItems_word s (ne_stringWord plain)]
    exact h.seq (h.word plain known) ih
  | loop ident fit inner rest ihInner ihRest =>
    rw [runItems_block, runItems_block, runBody_eq, runBody_eq]
    exact h.seq (h.loop fit ihInner) ihRest

end Runner

/-! ## Evaluation -/

section Evaluation

variable (answer : Answer)

theorem runBody_word {answer : Answer} {b : Body} (h : b.kind = .word) :
    runBody answer b = inCall b (runItems answer b.items) :=
  (Runner.runBody_eq _ b).trans (inBody_word h _)

theorem runBody_loop {answer : Answer} {b : Body} (h : b.kind = .loop) :
    runBody answer b = inLoop b (runItems answer b.items) :=
  (Runner.runBody_eq _ b).trans (inBody_loop h _)

theorem runBody_of_bounds {answer : Answer} {b : Body} (h : b.kind = .loop) {m m' : Machine} {start stop : Float}
    (hbounds : MachineM.ofEffect popBounds m = .ok (start, stop) m') :
    runBody answer b m =
      unscoped (passes b.ident (runItems answer b.items) stop start { m' with scopes := b.locals :: m'.scopes }) := by
  rw [runBody_loop h, inLoop_of_bounds hbounds]

theorem runItems_nil : runItems answer [] = pure () := Runner.runItems_nil _

theorem runItems_text (text : String) (items : List Item) :
    runItems answer (.word stringWord :: .word text :: items) =
      (do runItemString answer text; runItems answer items) :=
  Runner.runItems_text _ text items

theorem runItems_missing {items : List Item} (h : ∀ text rest, items ≠ .word text :: rest) :
    runItems answer (.word stringWord :: items) = throw .missingLiteral :=
  Runner.runItems_missing _ h

theorem runItems_word {word : String} (h : word ≠ stringWord) (items : List Item) :
    runItems answer (.word word :: items) = (do runItemWord answer word; runItems answer items) :=
  Runner.runItems_word _ h items

theorem runItems_block (b : Body) (items : List Item) :
    runItems answer (.block b :: items) = (do runBody answer b; runItems answer items) :=
  Runner.runItems_block _ b items

end Evaluation

end ReversePolish
