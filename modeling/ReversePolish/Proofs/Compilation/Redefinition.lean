/-
What a finished definition leaves of the definitions that its name had.

`Completes d d' b` says that d' comes from d by giving the name of b this body: behind the native definitions, in place
of every earlier body. It holds on all machines of a host, also of one that registers definitions and drops names.
Results:
- `completes_install`: an installed body completes a definition, in every dictionary whose names are in order;
- `Hosted.keeps_dictionary`: what holds of the vocabularies at the start, and what registering, dropping and installing
  keep, holds of the dictionary of every such machine;
- `SingleBodied`: without registered bodies, each of these keeps to one body a name;
- `evalOne_defining`, `Linked.completes`: while a definition is open, one word leaves it open with the same dictionary
  or is the end of it, so words up to its end install its body in the dictionary that it was opened on
  (`Linked.defines`);
- `completion_keeps_natives` puts these together.
-/
import ReversePolish.Proofs.Compilation.Atomic
import ReversePolish.Proofs.Dictionary.History

namespace ReversePolish

/-! ## Completed definitions -/

/-- d' has this body under its name, behind the definitions of d that hold no body, and is d under all other names -/
structure Completes (d d' : Dictionary) (b : Body) : Prop where
  definitions : d'.definitions b.ident = (d.definitions b.ident).filter (!·.isCompiled) ++ [.ofBody b]
  compiled : (d'.definitions b.ident).filter (·.isCompiled) = [.ofBody b]
  others : ∀ other, other ≠ b.ident → d'.definitions other = d.definitions other
  /-- the first native definition that accepts the stack applies, and the body if there is none -/
  lookup : ∀ s, d'.lookup b.ident s =
    some ((((d.definitions b.ident).filter (!·.isCompiled)).find? (·.validator.accepts s)).getD (.ofBody b))

theorem completes_install {d : Dictionary} (hd : d.Proper) {b : Body} (hb : b.ident ≠ "") :
    Completes d (d.install b) b := by
  have hdefinitions := Dictionary.definitions_install hd hb b.ident
  rw [if_pos rfl] at hdefinitions
  refine ⟨hdefinitions, ?_, fun other hother => ?_, fun s => ?_⟩
  · have hnatives : ((d.definitions b.ident).filter (!·.isCompiled)).filter (·.isCompiled) = [] := by
      rw [List.filter_filter, List.filter_eq_nil_iff]
      intro x _
      cases x.isCompiled <;> decide
    rw [hdefinitions, List.filter_append, hnatives]
    rfl
  · rw [Dictionary.definitions_install hd hb, if_neg (Ne.symm hother)]
  · rw [Dictionary.lookup, hdefinitions, List.find?_append]
    cases ((d.definitions b.ident).filter (!·.isCompiled)).find? (·.validator.accepts s) with
    | some x => rfl
    | none => simp [Definition.ofBody, Validator.accepts]

/-! ## Hosts that register definitions -/

theorem core_built : Machine.core.dictionary.Built CoreWord.definitions := by
  have hnew : ∀ e ∈ CoreWord.definitions, e.1 ≠ "" ∧ e.2.context.body? = none := by decide
  exact (Dictionary.built_empty.registerAll (fun e he => (hnew e he).1) (fun e he => (hnew e he).2) fun _ _ => rfl).1

/-- what holds of a dictionary that definitions without a body were put into, and what a host and an installed body
keep, holds of the words of every machine -/
theorem Hosted.keeps_dictionary {host : Host} {P : Dictionary → Prop} (hbuilt : ∀ ns d, Dictionary.Built ns d → P d)
    (hregister : ∀ d name x, host.registers x → P d → P (d.register name x).2)
    (hremove : ∀ d name, P d → P (d.remove name).2)
    (hinstall : ∀ d b, b.ident ≠ "" → P d → P (d.install b)) {m : Machine} (h : Hosted host m) :
    P m.dictionary :=
  h.keeps (P := fun m => P m.dictionary) (fun _ => hbuilt _ _ core_built)
    (fun _ _ _ _ hholds => hbuilt _ _ hholds.built) (fun _ name x fit hm => hregister _ name x fit hm)
    (fun _ name _ hm => hremove _ name hm) (fun _ _ hev hm => hev.keeps_dictionary hinstall hm)
    (fun _ _ _ _ hm => hm)

theorem Hosted.proper {host : Host} {m : Machine} (h : Hosted host m) : m.dictionary.Proper :=
  h.keeps_dictionary (fun _ _ hd => hd.proper) (fun _ name x _ hd => hd.register name x)
    (fun _ name hd => hd.erase name) (fun _ b _ hd => hd.install b)

/-- an evaluation completes one definition after the other, and changes the dictionary in no other way -/
theorem Evaluates.completes {m m' : Machine} (h : Evaluates m m') (hm : m.dictionary.Proper) :
    Relation.ReflTransGen (fun d d' => ∃ b, Completes d d' b) m.dictionary m'.dictionary := by
  refine (h.evolves.keeps_dictionary (P := fun d => d.Proper ∧
    Relation.ReflTransGen (fun d d' => ∃ b, Completes d d' b) m.dictionary d) ?_ ⟨hm, .refl⟩).2
  rintro d b hb ⟨hd, hchain⟩
  exact ⟨hd.install b, hchain.tail ⟨b, completes_install hd hb⟩⟩

/-! ## One body a name -/

/-- the names are in order, and every name has at most one body -/
structure SingleBodied (d : Dictionary) : Prop where
  proper : d.Proper
  single : ∀ name, (d.definitions name).countP (·.isCompiled) ≤ 1

namespace SingleBodied

variable {d : Dictionary}

theorem of_built {ns : List Named} (h : d.Built ns) : SingleBodied d := by
  refine ⟨h.proper, fun name => ?_⟩
  have hnatives : (Dictionary.nativesOf ns name).countP (·.isCompiled) = 0 := by
    rw [List.countP_eq_zero]
    intro x hx
    simp [Definition.isCompiled, h.bodiless _ (Dictionary.mem_nativesOf.1 hx)]
  rw [h.definitions_eq, List.countP_append, hnatives, Nat.zero_add]
  exact List.countP_le_length.trans (by cases d.body? name <;> simp)

theorem register (h : SingleBodied d) (name : String) {x : Definition} (hx : x.isCompiled = false) :
    SingleBodied (d.register name x).2 := by
  refine ⟨h.proper.register name x, fun other => ?_⟩
  by_cases hname : name = ""
  · rw [(Dictionary.register_snd_eq_self_iff d name x).2 hname]
    exact h.single other
  · rw [Dictionary.definitions_register hname]
    split
    · rw [List.countP_append, List.countP_singleton, hx]
      exact h.single name
    · exact h.single other

theorem remove (h : SingleBodied d) (name : String) : SingleBodied (d.remove name).2 := by
  refine ⟨h.proper.erase name, fun other => ?_⟩
  rw [Dictionary.definitions_remove h.proper]
  split
  · simp
  · exact h.single other

theorem install (h : SingleBodied d) {b : Body} (hb : b.ident ≠ "") : SingleBodied (d.install b) := by
  have hcompletes := completes_install h.proper hb
  refine ⟨h.proper.install b, fun other => ?_⟩
  by_cases hother : other = b.ident
  · rw [hother, List.countP_eq_length_filter, hcompletes.compiled, List.length_singleton]
  · rw [hcompletes.others other hother]
    exact h.single other

end SingleBodied

theorem Hosted.singleBodied {host : Host} (hallowed : ∀ x, host.registers x → x.isCompiled = false) {m : Machine}
    (h : Hosted host m) : SingleBodied m.dictionary :=
  h.keeps_dictionary (fun _ _ hd => .of_built hd) (fun _ name x hx hd => hd.register name (hallowed x hx))
    (fun _ name hd => hd.remove name) (fun _ _ hb hd => hd.install hb)

/-! ## Words while a definition is open -/

/-- the open bodies are a definition of this name and loops inside it, innermost first -/
inductive OpenDefinition (name : String) : List Body → Prop
  | word (b : Body) (kind : b.kind = .word) (named : b.ident = name) : OpenDefinition name [b]
  | loop (b : Body) (kind : b.kind = .loop) {outer : List Body} (h : OpenDefinition name outer) :
    OpenDefinition name (b :: outer)

namespace OpenDefinition

variable {name : String} {b : Body} {outer : List Body}

/-- the innermost body may get items, and a name if it has none -/
theorem change (h : OpenDefinition name (b :: outer)) (hname : name ≠ "") {b' : Body} (hkind : b'.kind = b.kind)
    (hident : b.ident ≠ "" → b'.ident = b.ident) : OpenDefinition name (b' :: outer) := by
  cases h with
  | word _ kind named => exact .word b' (hkind.trans kind) ((hident (named ▸ hname)).trans named)
  | loop _ kind h => exact .loop b' (hkind.trans kind) h

theorem inner_of_loop (h : OpenDefinition name (b :: outer)) (hkind : b.kind = .loop) : OpenDefinition name outer := by
  cases h with
  | word _ kind => cases kind.symm.trans hkind
  | loop _ _ h => exact h

/-- a definition is open outside all loops -/
theorem eq_nil_of_word (h : OpenDefinition name (b :: outer)) (hkind : b.kind = .word) :
    outer = [] ∧ b.ident = name := by
  cases h with
  | word _ _ named => exact ⟨rfl, named⟩
  | loop _ kind => cases kind.symm.trans hkind

/-- a captured word leaves the definition open -/
theorem captured {m : Machine} (h : OpenDefinition name m.compilation.frames) (hname : name ≠ "") {word : String}
    {frames : List Body} {input : List Char} (hcap : Captured m word frames input) : OpenDefinition name frames := by
  cases hcap with
  | name b rest hframes waiting fit =>
    rw [hframes] at h
    exact h.change hname rfl fun hnamed => absurd waiting hnamed
  | comment b rest hframes =>
    rw [hframes] at h
    exact h
  | literal b rest hframes =>
    rw [hframes] at h
    exact h.change hname rfl fun _ => rfl
  | loop b rest hframes =>
    rw [hframes] at h
    exact .loop _ rfl h
  | nest b outer rest hframes named kind =>
    rw [hframes] at h
    exact (h.inner_of_loop kind).change hname rfl fun _ => rfl
  | word b rest hframes =>
    rw [hframes] at h
    exact h.change hname rfl fun _ => rfl

end OpenDefinition

/-- a word that succeeds while a definition is open leaves it open and the dictionary as it was, or ends it -/
theorem evalOne_defining {name : String} (hname : name ≠ "") {m m' : Machine}
    (hopen : OpenDefinition name m.compilation.frames) {word rest : String}
    (h : (Machine.evalOne word rest m).1 = .ok () m') :
    OpenDefinition name m'.compilation.frames ∧ m'.dictionary = m.dictionary ∨
      ∃ b, Ends m word b [] ∧ b.ident = name ∧ m'.isCompiling = false ∧ m'.dictionary = m.dictionary.install b := by
  by_cases hword : word = ""
  · subst hword
    cases h
    exact .inl ⟨hopen, rfl⟩
  have hactive : m.isCompiling = true := by
    obtain ⟨frames, hframes⟩ : ∃ frames, m.compilation = ⟨frames⟩ := ⟨_, rfl⟩
    rw [hframes] at hopen
    cases hopen <;> exact Machine.isCompiling_of_frames hframes
  rw [evalOne_eq] at h
  unfold Machine.withInput onLine at h
  cases hr : evalWord (answerUpTo m.allowance) word { m with input := rest.toList } with
  | error f m₁ =>
    rw [hr] at h
    cases h
  | ok a m₁ =>
    rw [hr] at h
    cases h
    rcases evalWord_capturing (m := { m with input := rest.toList }) hword hactive hr with
      ⟨frames, input, status, log, hcap, rfl⟩ | ⟨b, outer, status, log, hends, rfl⟩ | ⟨b, hcloses⟩
    · exact .inl ⟨OpenDefinition.captured (m := { m with input := rest.toList }) hopen hname hcap, rfl⟩
    · have hframes : m.compilation = ⟨b :: outer⟩ := hends.frames
      rw [hframes] at hopen
      obtain ⟨rfl, hident⟩ := hopen.eq_nil_of_word hends.kind
      exact .inr ⟨b, ⟨hends.word, hframes, hends.named, hends.kind⟩, hident, rfl, rfl⟩
    · -- the outermost body is no loop
      have hframes : m.compilation = ⟨[b]⟩ := hcloses.frames
      rw [hframes] at hopen
      cases hopen.inner_of_loop hcloses.kind

theorem evalOne_error_idle {word rest : String} {m m' : Machine} {f : Fault}
    (h : (Machine.evalOne word rest m).1 = .error f m') : m'.isCompiling = false := by
  unfold Machine.evalOne at h
  split at h
  · cases h
  · rename_i hr
    have hidle := evalWord_error_idle hr
    cases h
    exact hidle

/-- words that leave a definition open, up to the one that ends it -/
theorem Linked.completes {name : String} (hname : name ≠ "") {m m' : Machine} {before after : List Fed} {e : Fed}
    (h : Linked m (before ++ e :: after)) (hopen : OpenDefinition name m.compilation.frames)
    (hactive : ∀ e' ∈ before, e'.result.state.isCompiling = true) (hend : e.result = .ok () m')
    (hidle : m'.isCompiling = false) :
    ∃ b, Ends e.machine e.word b [] ∧ b.ident = name ∧ m'.dictionary = m.dictionary.install b := by
  induction before generalizing m with
  | nil =>
    cases h with
    | cons word rest tail =>
      rcases evalOne_defining hname hopen hend with ⟨hopen', -⟩ | ⟨b, hends, hident, -, hinstall⟩
      · rw [Machine.compilation_eq_of_idle hidle] at hopen'
        cases hopen'
      · exact ⟨b, hends, hident, hinstall⟩
  | cons e₁ before ih =>
    rw [List.cons_append] at h
    cases h with
    | cons word rest tail =>
      have hactive₁ : (Machine.evalOne word rest m).1.state.isCompiling = true := hactive _ List.mem_cons_self
      cases hr : (Machine.evalOne word rest m).1 with
      | ok a m₁ =>
        rw [hr] at hactive₁
        rcases evalOne_defining hname hopen hr with ⟨hopen', hsame⟩ | ⟨b, -, -, hidle₁, -⟩
        · rw [← hsame]
          exact ih (tail m₁ hr) hopen' fun e' he' => hactive e' (List.mem_cons_of_mem _ he')
        · cases hidle₁.symm.trans hactive₁
      | error f m₁ =>
        rw [hr] at hactive₁
        cases (evalOne_error_idle hr).symm.trans hactive₁

/-! ## From the first word of a definition to the last -/

theorem evalOne_of_evalWord {m m' : Machine} {word rest : String}
    (h : evalWord (answerUpTo m.allowance) word { m with input := rest.toList } = .ok () m') :
    (Machine.evalOne word rest m).1 = .ok () { m' with input := m.input } := by
  unfold Machine.evalOne
  rw [h]

/-- the word that opens a definition does so on this machine -/
def Machine.CanDefine (m : Machine) : Prop :=
  m.isCompiling = false ∧ ∃ d, m.dictionary.lookup ":" m.stack = some d ∧ d.action = .core .define

theorem evalOne_colon {m : Machine} (h : m.CanDefine) (rest : String) :
    ∃ m', (Machine.evalOne ":" rest m).1 = .ok () m' ∧ m'.compilation = ⟨[Body.empty .word]⟩ ∧
      m'.dictionary = m.dictionary := by
  obtain ⟨hidle, d, hlookup, haction⟩ := h
  obtain ⟨status, log, hr⟩ := evalWord_opens (answerUpTo m.allowance) (m := { m with input := rest.toList }) hidle
    (by decide : ":" ≠ "") (Token.literal_eq_name_iff.2 (by decide)) hlookup (.inl ⟨haction, rfl⟩)
  exact ⟨_, evalOne_of_evalWord hr, rfl, rfl⟩

/-- the word after it is the name of the definition, if it leaves the definition open -/
theorem evalOne_ident {m : Machine} (hframes : m.compilation = ⟨[Body.empty .word]⟩) {name : String} (hname : name ≠ "")
    {rest : String} (hactive : (Machine.evalOne name rest m).1.state.isCompiling = true) :
    ∃ m', (Machine.evalOne name rest m).1 = .ok () m' ∧ OpenDefinition name m'.compilation.frames ∧
      m'.dictionary = m.dictionary := by
  rw [evalOne_eq] at hactive ⊢
  unfold Machine.withInput at hactive ⊢
  cases hr : evalWord (answerUpTo m.allowance) name { m with input := rest.toList } with
  | error f m₁ =>
    rw [hr] at hactive
    cases (evalWord_error_idle hr).symm.trans hactive
  | ok a m₁ =>
    have hempty {b : Body} {outer : List Body} (h : m.compilation = ⟨b :: outer⟩) :
        b = Body.empty .word ∧ outer = [] := by
      rw [hframes] at h
      simpa [eq_comm] using h
    have hunnamed {b : Body} {outer : List Body} (h : m.compilation = ⟨b :: outer⟩) (named : b.ident ≠ "") : False :=
      named (by rw [(hempty h).1]; rfl)
    rcases evalWord_capturing (m := { m with input := rest.toList }) hname (Machine.isCompiling_of_frames hframes) hr
      with ⟨frames, input, status, log, hcap, rfl⟩ | ⟨b, outer, status, log, hends, rfl⟩ | ⟨b, hcloses⟩
    · refine ⟨_, rfl, ?_, rfl⟩
      cases hcap with
      | name b outer h =>
        obtain ⟨rfl, rfl⟩ := hempty h
        exact .word _ rfl rfl
      | comment b outer h named => exact (hunnamed h named).elim
      | literal b outer h named => exact (hunnamed h named).elim
      | loop b outer h named => exact (hunnamed h named).elim
      | nest b outer rest h named => exact (hunnamed h named).elim
      | word b outer h named => exact (hunnamed h named).elim
    · exact (hunnamed hends.frames hends.named).elim
    · exact (hunnamed hcloses.frames hcloses.named).elim

theorem evalOne_named {m : Machine} (hframes : m.compilation = ⟨[Body.empty .word]⟩) {name : String}
    (hfit : IsName name) (rest : String) :
    ∃ m', (Machine.evalOne name rest m).1 = .ok () m' ∧ m'.compilation = ⟨[⟨.word, name, [], []⟩]⟩ := by
  obtain ⟨status, log, hr⟩ := evalWord_captured (answerUpTo m.allowance) (m := { m with input := rest.toList }) hfit.1
    (.name (Body.empty .word) [] hframes rfl hfit)
  exact ⟨_, evalOne_of_evalWord hr, rfl⟩

theorem evalOne_ends {m : Machine} {b : Body} {outer : List Body} (h : Ends m ";" b outer) (rest : String) :
    ∃ m', (Machine.evalOne ";" rest m).1 = .ok () m' ∧ m'.compilation = ⟨outer⟩ ∧
      m'.dictionary = m.dictionary.install b := by
  obtain ⟨status, log, hr⟩ := evalWord_ends (answerUpTo m.allowance) (m := { m with input := rest.toList })
    ⟨h.word, h.frames, h.named, h.kind⟩
  exact ⟨_, evalOne_of_evalWord hr, rfl, rfl⟩

/-- words from the one that opens a definition to the one that ends it -/
theorem Linked.defines {m m' : Machine} (hcan : m.CanDefine) {before after : List Fed} {e : Fed} {name : String}
    (h : Linked m (before ++ e :: after)) (hfirst : (before.map Fed.word).take 2 = [":", name]) (hname : name ≠ "")
    (hactive : ∀ e' ∈ before, e'.result.state.isCompiling = true) (hend : e.result = .ok () m')
    (hidle : m'.isCompiling = false) :
    ∃ b, Ends e.machine e.word b [] ∧ b.ident = name ∧ m'.dictionary = m.dictionary.install b := by
  obtain ⟨e₁, e₂, before, rfl⟩ : ∃ e₁ e₂ before', before = e₁ :: e₂ :: before' := by
    cases before with
    | nil => cases hfirst
    | cons e₁ before =>
      cases before with
      | nil => simp at hfirst
      | cons e₂ before => exact ⟨e₁, e₂, before, rfl⟩
  rw [List.cons_append, List.cons_append] at h
  cases h with
  | cons word₁ rest₁ tail₁ =>
    obtain ⟨hcolon, hsecond⟩ : word₁ = ":" ∧ e₂.word = name := by simpa using hfirst
    subst hcolon
    obtain ⟨m₁, hr₁, hframes₁, hsame₁⟩ := evalOne_colon hcan rest₁
    cases tail₁ m₁ hr₁ with
    | cons word₂ rest₂ tail₂ =>
      obtain rfl : word₂ = name := hsecond
      obtain ⟨m₂, hr₂, hopen, hsame₂⟩ := evalOne_ident hframes₁ hname
        (hactive _ (List.mem_cons_of_mem _ List.mem_cons_self))
      have hcompletes := (tail₂ m₂ hr₂).completes hname hopen
        (fun e' he' => hactive e' (List.mem_cons_of_mem _ (List.mem_cons_of_mem _ he'))) hend hidle
      rwa [hsame₂, hsame₁] at hcompletes

/-- every way to finish a definition on this machine completes it -/
structure KeepsNatives (m : Machine) : Prop where
  /-- by the last word of a definition that is open -/
  ends : ∀ b outer rest, Ends m ";" b outer →
    ∃ m', (Machine.evalOne ";" rest m).1 = .ok () m' ∧ m'.compilation = ⟨outer⟩ ∧
      Completes m.dictionary m'.dictionary b
  /-- by a line that spells the definition out -/
  line : m.CanDefine → ∀ (line name : String) (items : List Item), Defines m.dictionary line.toList name items →
    ∃ m', Machine.eval line m = .ok () m' ∧ Completes m.dictionary m'.dictionary ⟨.word, name, items, []⟩
  /-- by words and lines, from the word that opens the definition to the first that leaves no body open -/
  fed : m.CanDefine → ∀ (fs : List Feed) (before after : List Fed) (e : Fed) (name : String) (m' : Machine),
    feedAll fs m = before ++ e :: after → (before.map Fed.word).take 2 = [":", name] → name ≠ "" →
    (∀ e' ∈ before, e'.result.state.isCompiling = true) → e.result = .ok () m' → m'.isCompiling = false →
    ∃ b, Ends e.machine e.word b [] ∧ b.ident = name ∧ Completes m.dictionary m'.dictionary b
  /-- whatever is evaluated completes definitions, at whatever depth, and changes the dictionary in no other way -/
  within : ∀ m', Evaluates m m' →
    Relation.ReflTransGen (fun d d' => ∃ b, Completes d d' b) m.dictionary m'.dictionary

/-- **A finished definition keeps the native ones in front.** Whatever a host has registered and dropped, a definition
that is finished leaves its name the definitions without a body that it had, in their order, and behind them the new
body alone; all other names are as they were. If the host registers no definition with a body, no name ever has more
than one. -/
theorem completion_keeps_natives {host : Host} {m : Machine} (hm : Hosted host m) :
    KeepsNatives m ∧
    ((∀ x, host.registers x → x.isCompiled = false) →
      ∀ name, ((m.dictionary.definitions name).filter (·.isCompiled)).length ≤ 1) := by
  refine ⟨⟨fun b outer rest hends => ?_, ?_, ?_, fun m' hev => hev.completes hm.proper⟩, fun hallowed name => ?_⟩
  · obtain ⟨m', hr, hframes, hinstall⟩ := evalOne_ends hends rest
    exact ⟨m', hr, hframes, hinstall ▸ completes_install hm.proper hends.named⟩
  · rintro ⟨hidle, d, hlookup, haction⟩ line name items hdefines
    obtain ⟨status, log, hr⟩ := evalLine_definition (answerUpTo_evolves m.allowance) hidle hlookup haction hdefines
    exact ⟨_, hr, completes_install hm.proper hdefines.fit.1⟩
  · intro hcan fs before after e name m' hfed hfirst hname hactive hend hidle
    have hlinked := linked_feedAll fs m
    rw [hfed] at hlinked
    obtain ⟨b, hends, hident, hinstall⟩ := hlinked.defines hcan hfirst hname hactive hend hidle
    exact ⟨b, hends, hident, hinstall ▸ completes_install hm.proper hends.named⟩
  · rw [← List.countP_eq_length_filter]
    exact (hm.singleBodied hallowed).single name

/-- a native word is defined anew on a fresh machine, and goes on to apply where it did -/
theorem completion_keeps_natives_dup :
    ∃ m, Hosted ⟨True, (·.isCompiled = false)⟩ m ∧ m.CanDefine ∧ ∃ before e m' b,
      feedAll [.word ":" "", .word "DUP" "", .word ";" ""] m = before ++ [e] ∧ e.result = .ok () m' ∧
      Ends e.machine e.word b [] ∧ b.ident = "DUP" ∧ Completes m.dictionary m'.dictionary b ∧
      m'.dictionary.lookup "DUP" {} = some (.ofBody b) ∧
      m'.dictionary.lookup "DUP" ⟨[.integer 1], none⟩ = some ⟨.depth 1, .operator (.stack .dup), .none⟩ ∧
      ((m.dictionary.definitions "DUP").filter (·.isCompiled)).length ≤ 1 := by
  obtain ⟨dictionary, status, log, hstart, hholds⟩ := start_ok (s := {}) rfl
  generalize hm : { Settings.apply {} Machine.core with dictionary, status, log } = m at hstart
  have hcan : m.CanDefine := by
    subst hm
    exact ⟨rfl, _, (colon_core.append _).lookup hholds.built _, rfl⟩
  obtain ⟨m₁, hr₁, hframes₁, -⟩ := evalOne_colon hcan ""
  obtain ⟨m₂, hr₂, hframes₂⟩ := evalOne_named hframes₁ (by unfold IsName; decide : IsName "DUP") ""
  obtain ⟨m₃, hr₃, hframes₃, -⟩ := evalOne_ends ⟨rfl, hframes₂, by decide, rfl⟩ ""
  have hfed : feedAll [.word ":" "", .word "DUP" "", .word ";" ""] m =
      [⟨m, ":", .ok () m₁⟩, ⟨m₁, "DUP", .ok () m₂⟩] ++ [⟨m₂, ";", .ok () m₃⟩] := by
    simp [feedAll, Feed.words, Feed.after, hr₁, hr₂, hr₃]
  have hhosted : Hosted ⟨True, (·.isCompiled = false)⟩ m := .start hstart
  obtain ⟨hkeeps, hsingle⟩ := completion_keeps_natives hhosted
  have hactive : ∀ e ∈ [Fed.mk m ":" (.ok () m₁), ⟨m₁, "DUP", .ok () m₂⟩], e.result.state.isCompiling = true := by
    simp [Machine.isCompiling, hframes₁, hframes₂, Compilation.isActive]
  obtain ⟨b, hends, hident, hcompletes⟩ := hkeeps.fed hcan _ _ [] _ "DUP" m₃ hfed rfl (by decide) hactive rfl
    (by rw [Machine.isCompiling, hframes₃]; rfl)
  have hnatives : (m.dictionary.definitions b.ident).filter (!·.isCompiled) = Dictionary.nativesOf natives "DUP" := by
    subst hm
    rw [hident]
    exact hholds.built.filter_definitions "DUP"
  have hlookup := hcompletes.lookup
  rw [hnatives, hident] at hlookup
  exact ⟨m, hhosted, hcan, _, _, m₃, b, hfed, rfl, hends, hident, hcompletes, hlookup {}, hlookup ⟨[.integer 1], none⟩,
    hsingle (fun _ h => h) "DUP"⟩

end ReversePolish
