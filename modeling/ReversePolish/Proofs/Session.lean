/-
What every session holds.

- `natives`: the native definitions of a session; `stackSourceWords` and `typesSourceWords`: the bodies that its
  packages define in source.
- `addStandard_ok`: a machine with the structural words takes the standard vocabulary without a fault, and then holds
  exactly these definitions and bodies.
- `Hosted`: the machines of a session as its host sees them, between one call and the next: any lines, words and bodies
  may have been evaluated, and the host may have changed the stack, the tracing and the limit on calls. A `Host` says
  which words it may register, and whether it may drop words. `Reachable` is the case of a host that does neither.
- `Hosted.keeps`, `Reachable.keeps`: what holds at the start, and what evaluation and the host keep, holds of every such
  machine.
-/
import Mathlib.Data.List.Forall2
import ReversePolish.Proofs.Dictionary
import ReversePolish.Proofs.Machine.Capture
import ReversePolish.Session

namespace ReversePolish

/-! ## The standard vocabulary -/

/-- the native definitions of a session, in the order of their registration -/
def natives : List Named := CoreWord.definitions ++ Package.standard.flatMap Package.definitions

theorem isNative_of_mem_natives : ∀ e ∈ natives, e.2.isNative = true := by decide +kernel

/-- a body of plain words -/
def Body.ofWords (name : String) (words : List String) : Body := ⟨.word, name, words.map Item.word, []⟩

/-- the words that the package of stack words defines in source -/
def stackSourceWords : List Body := [.ofWords "DUP2" ["2", "DUPN"], .ofWords "DROP2" ["DROP", "DROP"]]

/-- the words that the package of types defines in source -/
def typesSourceWords : List Body :=
  [.ofWords "VEC3->\x7bxy\x7d" ["VEC3->", "DROP", "->\x7by\x7d", "SWAP", "->\x7bx\x7d", "+"],
    .ofWords "->\x7bxy\x7d" ["->\x7by\x7d", "SWAP", "->\x7bx\x7d", "+"]]

/-- the dictionary holds these native definitions, and no bodies but these -/
structure Dictionary.Holds (natives : List Named) (bodies : List Body) (d : Dictionary) : Prop where
  built : d.Built natives
  bodies : ∀ name b, d.body? name = some b → b ∈ bodies ∧ b.ident = name

namespace Dictionary.Holds

variable {natives more : List Named} {bodies : List Body} {d : Dictionary}

theorem install (h : d.Holds natives bodies) {b : Body} (hb : b.ident ≠ "") :
    (d.install b).Holds natives (b :: bodies) := by
  refine ⟨h.built.install hb, fun name b' hb' => ?_⟩
  rw [h.built.body?_install hb] at hb'
  split at hb'
  · rename_i heq
    cases hb'
    exact ⟨List.mem_cons_self, heq⟩
  · exact (h.bodies name b' hb').imp_left (List.mem_cons_of_mem b)

theorem registerAll (h : d.Holds natives bodies)
    (hmore : ∀ e ∈ more, e.1 ≠ "" ∧ e.2.context.body? = none ∧ ∀ b ∈ bodies, b.ident ≠ e.1) :
    (d.registerAll more).Holds (natives ++ more) bodies := by
  have hfree (e : Named) (he : e ∈ more) : d.body? e.1 = none := by
    cases hb : d.body? e.1 with
    | none => rfl
    | some b =>
      obtain ⟨hmem, hident⟩ := h.bodies _ _ hb
      exact absurd hident ((hmore e he).2.2 b hmem)
  obtain ⟨hbuilt, hbody⟩ := h.built.registerAll (fun e he => (hmore e he).1) (fun e he => (hmore e he).2.1) hfree
  exact ⟨hbuilt, fun name b hb => h.bodies name b (by rwa [hbody] at hb)⟩

end Dictionary.Holds

/-- the step succeeds outside a compilation, and takes a dictionary with the one property to one with the other -/
def Builds (P Q : Dictionary → Prop) (x : MachineM Unit) : Prop :=
  ∀ m, m.isCompiling = false → P m.dictionary →
    ∃ dictionary status log, x m = .ok () { m with dictionary, status, log } ∧ Q dictionary

theorem Builds.bind {P Q R : Dictionary → Prop} {x y : MachineM Unit} (hx : Builds P Q x) (hy : Builds Q R y) :
    Builds P R (do x; y) := by
  intro m hidle hm
  obtain ⟨d₁, st₁, log₁, hres₁, hd₁⟩ := hx m hidle hm
  obtain ⟨d₂, st₂, log₂, hres₂, hd₂⟩ := hy { m with dictionary := d₁, status := st₁, log := log₁ } hidle hd₁
  refine ⟨d₂, st₂, log₂, ?_, hd₂⟩
  change EStateM.bind x (fun _ => y) m = _
  simp only [EStateM.bind, hres₁, hres₂]

theorem Builds.pure (P : Dictionary → Prop) : Builds P P (Pure.pure ()) :=
  fun m _ hm => ⟨m.dictionary, m.status, m.log, rfl, hm⟩

/-- the definitions that open a definition are in place -/
def Colon (natives : List Named) : Prop :=
  (Dictionary.nativesOf natives ":").head? = some ⟨.depth 0, .core .define, .owner⟩

theorem Colon.lookup {natives : List Named} {d : Dictionary} (hcolon : Colon natives) (h : d.Built natives)
    (s : Stack) : d.lookup ":" s = some ⟨.depth 0, .core .define, .owner⟩ := by
  unfold Colon at hcolon
  rw [h.lookup_eq]
  cases hdefs : Dictionary.nativesOf natives ":" with
  | nil => simp [hdefs] at hcolon
  | cons x rest =>
    rw [hdefs] at hcolon
    cases hcolon
    rfl

/-- the line defines this word on top of the native definitions -/
structure Sources (natives : List Named) (line : String) (b : Body) : Prop where
  kind : b.kind = .word
  locals : b.locals = []
  defines : ∀ d : Dictionary, d.Built natives → Defines d line.toList b.ident b.items

/-- lines that define these words, one after the other -/
theorem evalAll_builds {natives : List Named} (hcolon : Colon natives) (lines : List String) (words : List Body)
    (h : List.Forall₂ (Sources natives) lines words) (bodies : List Body) :
    Builds (Dictionary.Holds natives bodies) (Dictionary.Holds natives (words.reverse ++ bodies))
      (Machine.evalAll lines) := by
  induction h generalizing bodies with
  | nil => exact .pure _
  | @cons line b lines words hline hrest ih =>
    obtain ⟨hkind, hlocals, hdefines⟩ := hline
    rw [List.reverse_cons, List.append_assoc]
    refine Builds.bind (x := Machine.eval line) ?_ (ih (b :: bodies))
    intro m hidle hm
    have hb : (⟨.word, b.ident, b.items, []⟩ : Body) = b := by
      rw [← hkind, ← hlocals]
      cases b
      rfl
    obtain ⟨status, log, hres⟩ := evalLine_definition (answerUpTo_evolves m.allowance) hidle
      (hcolon.lookup hm.built m.stack) rfl (hdefines m.dictionary hm.built)
    rw [hb] at hres
    exact ⟨_, status, log, hres, hm.install (hdefines m.dictionary hm.built).fit.1⟩

theorem addPackage_builds {natives : List Named} {bodies : List Body} (p : Package) (words : List Body)
    (hcolon : Colon (natives ++ p.definitions))
    (hnew : ∀ e ∈ p.definitions, e.1 ≠ "" ∧ e.2.context.body? = none ∧ ∀ b ∈ bodies, b.ident ≠ e.1)
    (hsource : List.Forall₂ (Sources (natives ++ p.definitions)) p.source words) :
    Builds (Dictionary.Holds natives bodies) (Dictionary.Holds (natives ++ p.definitions) (words.reverse ++ bodies))
      (Machine.addPackage p) := by
  refine Builds.bind (Q := Dictionary.Holds (natives ++ p.definitions) bodies) ?_
    (evalAll_builds hcolon p.source words hsource bodies)
  intro m _ hm
  exact ⟨m.dictionary.registerAll p.definitions, m.status, m.log, rfl, hm.registerAll hnew⟩

/-! ## The packages -/

/-- a name that has a native definition may be captured -/
theorem Dictionary.Built.knows {natives : List Named} {d : Dictionary} (h : d.Built natives) (scope : List String)
    {word : String} (hname : Token.isNumeric word.toList = false) (hnative : word ∈ natives.map Prod.fst) :
    d.Knows scope word := by
  refine .inr ⟨Token.literal_eq_name_iff.2 hname, .inr ((h.contains_iff word).2 (.inl ?_))⟩
  obtain ⟨e, he, rfl⟩ := List.mem_map.1 hnative
  exact List.ne_nil_of_mem (List.mem_map.2 ⟨e, List.mem_filter.2 ⟨he, by simp⟩, rfl⟩)

/-- plain words with blanks between them stand for themselves -/
theorem captures_words {ok : List String → String → Prop} {scope : List String} {rest : List Char} (words : List String)
    (h : ∀ w ∈ words, Token.IsWord w.toList ∧ CompileWord.ofName? w = none ∧ ok scope w) :
    Captures ok scope (words.flatMap (·.toList ++ [' ']) ++ rest) (words.map Item.word) rest := by
  induction words with
  | nil => exact .done scope rest
  | cons w words ih =>
    obtain ⟨hword, hplain, hok⟩ := h w (by simp)
    have hread := Token.next_word hword (Token.endsWord_space (words.flatMap (·.toList ++ [' ']) ++ rest))
    refine .word w ?_ (fun h' => hword.1 (by rw [h']; rfl)) hplain hok
      (ih fun w' hw' => h w' (List.mem_cons_of_mem _ hw'))
    simpa using hread

/-- a word that a source text may use on top of the native definitions -/
def Usable (natives : List Named) (word : String) : Prop :=
  Token.IsWord word.toList ∧ CompileWord.ofName? word = none ∧
    (Token.isNumeric word.toList = false ∧ word ∈ natives.map Prod.fst ∨ ∃ v, Token.literal word.toList = .number v)

/-- a line laid out as a name, a text that is skipped, and usable words -/
theorem Sources.ofWords {natives : List Named} {line name : String} {words : List String} (start inner body : List Char)
    (hline : Token.next line.toList = (":".toList, start)) (hname : Token.next start = (name.toList, inner))
    (hfit : IsName name)
    (hskip : ∀ ok scope items, Captures ok scope body items [';'] → Captures ok scope inner items [';'])
    (hbody : body = words.flatMap (·.toList ++ [' ']) ++ [';']) (hwords : ∀ w ∈ words, Usable natives w) :
    Sources natives line (.ofWords name words) := by
  refine ⟨rfl, rfl, fun d hd => ⟨⟨start, inner, [';'], [], hline, hname, hskip _ _ _ ?_, by decide, by decide⟩, hfit⟩⟩
  rw [hbody]
  refine captures_words words fun w hw => ?_
  obtain ⟨hword, hplain, ⟨hnumeric, hnative⟩ | hnumber⟩ := hwords w hw
  · exact ⟨hword, hplain, hd.knows [name] hnumeric hnative⟩
  · exact ⟨hword, hplain, .inl hnumber⟩

/-- names of native definitions -/
theorem usable_natives {natives : List Named} {words : List String}
    (h : ∀ w ∈ words, Token.IsWord w.toList ∧ CompileWord.ofName? w = none ∧ Token.isNumeric w.toList = false ∧
      w ∈ natives.map Prod.fst) : ∀ w ∈ words, Usable natives w := by
  intro w hw
  obtain ⟨hword, hplain, hknown⟩ := h w hw
  exact ⟨hword, hplain, .inl hknown⟩

theorem usable_two (natives : List Named) : Usable natives "2" :=
  ⟨by decide, by decide, .inr ⟨_, Token.literal_integer (n := 2) (by decide)⟩⟩

set_option maxRecDepth 4000 in
theorem sources_stack :
    List.Forall₂ (Sources (CoreWord.definitions ++ Package.stack.definitions)) Package.stack.source
      stackSourceWords := by
  have hnative : ∀ w ∈ ["DUPN", "DROP"], Usable (CoreWord.definitions ++ Package.stack.definitions) w :=
    usable_natives (by decide +kernel)
  refine .cons ?_ (.cons ?_ .nil)
  · refine Sources.ofWords "DUP2 2 DUPN ;".toList "2 DUPN ;".toList _ (by decide) (by decide)
      (by unfold IsName; decide) (fun _ _ _ => id) (by decide) ?_
    simp only [List.forall_mem_cons, List.not_mem_nil, false_imp_iff, implies_true, and_true]
    exact ⟨usable_two _, hnative "DUPN" (by simp)⟩
  · refine Sources.ofWords "DROP2 DROP DROP ;".toList "DROP DROP ;".toList _ (by decide) (by decide)
      (by unfold IsName; decide) (fun _ _ _ => id) (by decide) ?_
    simp only [List.forall_mem_cons, List.not_mem_nil, false_imp_iff, implies_true, and_true]
    exact ⟨hnative "DROP" (by simp), hnative "DROP" (by simp)⟩

/-- the native definitions up to the package of types -/
def nativesToTypes : List Named :=
  CoreWord.definitions ++ Package.stack.definitions ++ Package.logic.definitions ++ Package.math.definitions ++
    Package.types.definitions

set_option maxRecDepth 4000 in
theorem sources_types :
    List.Forall₂ (Sources nativesToTypes) Package.types.source typesSourceWords := by
  have hall : ∀ w ∈ ["VEC3->", "DROP", "->\x7by\x7d", "SWAP", "->\x7bx\x7d", "+"], Usable nativesToTypes w :=
    usable_natives (by decide +kernel)
  refine .cons ?_ (.cons ?_ .nil)
  · refine Sources.ofWords
      "VEC3->\x7bxy\x7d ( <v3> <v3'> ) VEC3-> DROP ->\x7by\x7d SWAP ->\x7bx\x7d + ;".toList
      "( <v3> <v3'> ) VEC3-> DROP ->\x7by\x7d SWAP ->\x7bx\x7d + ;".toList
      "VEC3-> DROP ->\x7by\x7d SWAP ->\x7bx\x7d + ;".toList (by decide) (by decide) (by unfold IsName; decide) ?_
      (by decide) ?_
    · exact fun _ _ _ h => h.commented (by decide) (by decide : ')' ∉ "<v3> <v3'> ".toList)
    · exact hall
  · refine Sources.ofWords "->\x7bxy\x7d ( x y -- <v3'> ) ->\x7by\x7d SWAP ->\x7bx\x7d + ;".toList
      "( x y -- <v3'> ) ->\x7by\x7d SWAP ->\x7bx\x7d + ;".toList "->\x7by\x7d SWAP ->\x7bx\x7d + ;".toList
      (by decide) (by decide) (by unfold IsName; decide) ?_ (by decide)
      fun w hw => hall w (by simp at hw ⊢; tauto)
    exact fun _ _ _ h => h.commented (by decide) (by decide : ')' ∉ "x y -- <v3'> ".toList)

theorem Colon.append {natives : List Named} (h : Colon natives) (more : List Named) : Colon (natives ++ more) := by
  unfold Colon at *
  rw [Dictionary.nativesOf_append, List.head?_append, h]
  rfl

theorem colon_core : Colon CoreWord.definitions := rfl

/-- a package of native definitions only -/
theorem addPackage_natives {natives : List Named} {bodies : List Body} {p : Package} (hcolon : Colon natives)
    (hsource : p.source = [])
    (hnew : ∀ e ∈ p.definitions, e.1 ≠ "" ∧ e.2.context.body? = none ∧ ∀ b ∈ bodies, b.ident ≠ e.1) :
    Builds (Dictionary.Holds natives bodies) (Dictionary.Holds (natives ++ p.definitions) bodies)
      (Machine.addPackage p) :=
  addPackage_builds p [] (hcolon.append _) hnew (hsource ▸ .nil)

set_option maxRecDepth 4000 in
theorem addPackages_builds :
    Builds (Dictionary.Holds CoreWord.definitions [])
      (Dictionary.Holds natives (typesSourceWords.reverse ++ stackSourceWords.reverse))
      (Machine.addPackages Package.standard) := by
  have hstack : Builds (Dictionary.Holds CoreWord.definitions []) _ (Machine.addPackage .stack) :=
    addPackage_builds _ stackSourceWords (colon_core.append _) (by decide +kernel) sources_stack
  have hcolon := colon_core.append Package.stack.definitions
  have hlogic : Builds (Dictionary.Holds _ stackSourceWords.reverse) _ (Machine.addPackage .logic) :=
    addPackage_natives hcolon rfl (by decide +kernel)
  replace hcolon := hcolon.append Package.logic.definitions
  have hmath : Builds (Dictionary.Holds _ stackSourceWords.reverse) _ (Machine.addPackage .math) :=
    addPackage_natives hcolon rfl (by decide +kernel)
  replace hcolon := hcolon.append Package.math.definitions
  have htypes : Builds (Dictionary.Holds _ stackSourceWords.reverse) _ (Machine.addPackage .types) :=
    addPackage_builds _ typesSourceWords (hcolon.append _) (by decide +kernel) sources_types
  replace hcolon := hcolon.append Package.types.definitions
  have hfraction : Builds (Dictionary.Holds _ (typesSourceWords.reverse ++ stackSourceWords.reverse)) _
      (Machine.addPackage .fraction) := addPackage_natives hcolon rfl (by decide +kernel)
  replace hcolon := hcolon.append Package.fraction.definitions
  have htimecode : Builds (Dictionary.Holds _ (typesSourceWords.reverse ++ stackSourceWords.reverse)) _
      (Machine.addPackage .timecode) := addPackage_natives hcolon rfl (by decide +kernel)
  have hall := hstack.bind (hlogic.bind (hmath.bind (htypes.bind (hfraction.bind (htimecode.bind (.pure _))))))
  simpa only [natives, Package.standard, List.flatMap_cons, List.flatMap_nil, List.append_nil, List.append_assoc,
    Machine.addPackages] using hall

/-- a machine with the structural words takes the standard vocabulary -/
theorem addStandard_ok {m : Machine} (hidle : m.isCompiling = false)
    (hcore : m.dictionary = ({} : Dictionary).registerAll CoreWord.definitions) :
    ∃ dictionary status log, Machine.addStandard m = .ok () { m with dictionary, status, log } ∧
      dictionary.Holds natives (typesSourceWords.reverse ++ stackSourceWords.reverse) := by
  have hm : m.dictionary.Holds CoreWord.definitions [] := by
    have hempty : Dictionary.Holds [] [] {} := ⟨Dictionary.built_empty, fun _ _ h => by cases h⟩
    rw [hcore]
    exact hempty.registerAll (by decide)
  obtain ⟨dictionary, status, log, hres, hholds⟩ := addPackages_builds m hidle hm
  refine ⟨dictionary, status, .vocabularyReady dictionary.size :: log, ?_, hholds⟩
  change EStateM.bind (Machine.addPackages Package.standard) _ m = _
  simp only [EStateM.bind, hres]
  rfl

/-! ## Reachable machines -/

theorem runPrelude_evolves {lines : List String} {index : Nat} {m m' : Machine}
    (h : Session.runPrelude index lines m = .ok m') : Evolves m m' := by
  induction lines generalizing index m with
  | nil =>
    cases h
    exact .refl _
  | cons line lines ih =>
    have hev := eval_evolves line m
    unfold Session.runPrelude at h
    split at h
    · rename_i a m₁ hres
      rw [hres] at hev
      exact hev.trans (ih h)
    · cases h

/-- a session starts from the standard vocabulary -/
theorem start_evolves {s : Settings} {m : Machine} (h : Session.start s = .ok m) :
    ∃ dictionary status log, dictionary.Holds natives (typesSourceWords.reverse ++ stackSourceWords.reverse) ∧
      Evolves { s.apply Machine.core with dictionary, status, log } m := by
  obtain ⟨dictionary, status, log, hres, hholds⟩ := addStandard_ok (m := s.apply Machine.core) rfl rfl
  refine ⟨dictionary, status, log, hholds, ?_⟩
  unfold Session.start at h
  rw [hres] at h
  dsimp only at h
  cases hprelude : Session.runPrelude 0 s.prelude { s.apply Machine.core with dictionary, status, log } with
  | error e =>
    rw [hprelude] at h
    cases h
  | ok m₁ =>
    rw [hprelude] at h
    cases h
    exact (runPrelude_evolves hprelude).trans (.record m₁ _)

/-- without a prelude, a session starts -/
theorem start_ok {s : Settings} (h : s.prelude = []) :
    ∃ dictionary status log, Session.start s = .ok { s.apply Machine.core with dictionary, status, log } ∧
      dictionary.Holds natives (typesSourceWords.reverse ++ stackSourceWords.reverse) := by
  obtain ⟨dictionary, status, log, hres, hholds⟩ := addStandard_ok (m := s.apply Machine.core) rfl rfl
  refine ⟨dictionary, status, .sessionReady dictionary.size 0 :: log, ?_, hholds⟩
  unfold Session.start
  rw [hres, h]
  rfl

theorem isName_of_mem_natives :
    ∀ name ∈ natives.map Prod.fst, name ≠ "" ∧ Token.isNumeric name.toList = false := by decide +kernel

/-- no word that is defined in source shares its name with a native one -/
theorem source_not_native :
    ∀ b ∈ typesSourceWords.reverse ++ stackSourceWords.reverse, b.ident ∉ natives.map Prod.fst := by decide +kernel

theorem Dictionary.Holds.body?_eq_none {d : Dictionary}
    (h : d.Holds natives (typesSourceWords.reverse ++ stackSourceWords.reverse)) {name : String}
    (hname : name ∈ natives.map Prod.fst) : d.body? name = none := by
  cases hb : d.body? name with
  | none => rfl
  | some b =>
    obtain ⟨hmem, hident⟩ := h.bodies name b hb
    exact absurd (hident ▸ hname) (source_not_native b hmem)

/-- m' is what the evaluation of a line, a word or a body leaves of m, whether it succeeds or fails -/
inductive Evaluates (m : Machine) : Machine → Prop
  | line (text : String) : Evaluates m (Machine.eval text m).state
  | word (word rest : String) : Evaluates m (Machine.evalOne word rest m).1.state
  | body (b : Body) : Evaluates m (Machine.run b m).state
  | call (b : Body) : Evaluates m (Machine.call b m).state

theorem Evaluates.evolves {m m' : Machine} (h : Evaluates m m') : Evolves m m' := by
  cases h with
  | line text => exact eval_evolves text m
  | word word rest => exact evalOne_evolves word rest m
  | body b => exact run_evolves b m
  | call b => exact call_evolves b m

/-- what a host may do to the words of a session -/
structure Host where
  /-- may it start from the structural words alone, and drop names? -/
  edits : Prop
  /-- the definitions that it may register -/
  registers : Definition → Prop

/-- a host that leaves the words to evaluation -/
def Host.plain : Host := ⟨False, fun _ => False⟩

/-- the machines between one call of a host and the next -/
inductive Hosted (host : Host) : Machine → Prop
  | core (free : host.edits) : Hosted host Machine.core
  | start {s : Settings} {m : Machine} (h : Session.start s = .ok m) : Hosted host m
  | register {m : Machine} (h : Hosted host m) (name : String) (x : Definition) (fit : host.registers x) :
    Hosted host { m with dictionary := (m.dictionary.register name x).2 }
  | unregister {m : Machine} (h : Hosted host m) (name : String) (free : host.edits) :
    Hosted host { m with dictionary := (m.dictionary.remove name).2 }
  | evaluate {m m' : Machine} (h : Hosted host m) (e : Evaluates m m') : Hosted host m'
  | host {m : Machine} (h : Hosted host m) (stack : Stack) (tracing : Bool) (maxCallDepth : Nat) :
    Hosted host { m with stack, tracing, maxCallDepth }
  | record {m : Machine} (h : Hosted host m) (e : Event) : Hosted host (m.record e)

/-- what holds at the start, and what evaluation and the host keep, holds of every machine of the host -/
theorem Hosted.keeps {host : Host} {P : Machine → Prop} (hcore : host.edits → P Machine.core)
    (hstart : ∀ (s : Settings) (dictionary : Dictionary) (status : String) (log : List Event),
      dictionary.Holds natives (typesSourceWords.reverse ++ stackSourceWords.reverse) →
        P { s.apply Machine.core with dictionary, status, log })
    (hregister : ∀ (m : Machine) (name : String) (x : Definition), host.registers x →
      P m → P { m with dictionary := (m.dictionary.register name x).2 })
    (hremove : ∀ (m : Machine) (name : String), host.edits →
      P m → P { m with dictionary := (m.dictionary.remove name).2 })
    (hevolves : ∀ m m', Evolves m m' → P m → P m')
    (hhost : ∀ (m : Machine) (stack : Stack) (tracing : Bool) (maxCallDepth : Nat),
      P m → P { m with stack, tracing, maxCallDepth })
    {m : Machine} (h : Hosted host m) : P m := by
  induction h with
  | core free => exact hcore free
  | start h =>
    obtain ⟨dictionary, status, log, hholds, hev⟩ := start_evolves h
    exact hevolves _ _ hev (hstart _ dictionary status log hholds)
  | register _ name x fit ih => exact hregister _ name x fit ih
  | unregister _ name free ih => exact hremove _ name free ih
  | evaluate _ e ih => exact hevolves _ _ e.evolves ih
  | host _ stack tracing maxCallDepth ih => exact hhost _ stack tracing maxCallDepth ih
  | record _ e ih => exact hevolves _ _ (.record _ e) ih

/-- the machines of a session whose host leaves the words to evaluation -/
abbrev Reachable : Machine → Prop := Hosted .plain

theorem Reachable.eval {m : Machine} (h : Reachable m) (line : String) : Reachable (Machine.eval line m).state :=
  h.evaluate (.line line)

theorem Reachable.word {m : Machine} (h : Reachable m) (word rest : String) :
    Reachable (Machine.evalOne word rest m).1.state :=
  h.evaluate (.word word rest)

/-- what holds of the standard vocabulary, and what evaluation and the host keep, holds of every reachable machine -/
theorem Reachable.keeps {P : Machine → Prop}
    (hstart : ∀ (s : Settings) (dictionary : Dictionary) (status : String) (log : List Event),
      dictionary.Holds natives (typesSourceWords.reverse ++ stackSourceWords.reverse) →
        P { s.apply Machine.core with dictionary, status, log })
    (hevolves : ∀ m m', Evolves m m' → P m → P m')
    (hhost : ∀ (m : Machine) (stack : Stack) (tracing : Bool) (maxCallDepth : Nat),
      P m → P { m with stack, tracing, maxCallDepth })
    {m : Machine} (h : Reachable m) : P m := by
  refine Hosted.keeps ?_ hstart ?_ ?_ hevolves hhost h
  · exact False.elim
  · exact fun _ _ _ => False.elim
  · exact fun _ _ => False.elim

/-- evaluation leaves the native definitions in place -/
theorem Evolves.built {ns : List Named} {m m' : Machine} (h : Evolves m m') (hm : m.dictionary.Built ns) :
    m'.dictionary.Built ns :=
  h.keeps_dictionary (fun _ _ hb hd => hd.install hb) hm

/-- evaluation drops no name -/
theorem Evolves.contains {ns : List Named} {m m' : Machine} (h : Evolves m m') (hm : m.dictionary.Built ns) {w : String}
    (hw : m.dictionary.contains w = true) : m'.dictionary.contains w = true := by
  refine (h.keeps_dictionary (P := fun d => d.Built ns ∧ d.contains w = true) ?_ ⟨hm, hw⟩).2
  rintro d b hb ⟨hd, hw⟩
  exact ⟨hd.install hb, (Dictionary.contains_install hd.proper hb w).2 (.inr hw)⟩

theorem Reachable.built {m : Machine} (h : Reachable m) : m.dictionary.Built natives :=
  h.keeps (P := fun m => m.dictionary.Built natives) (fun _ _ _ _ hholds => hholds.built)
    (fun _ _ hev hm => hev.built hm) (fun _ _ _ _ hm => hm)

/-- the nesting that a machine allows is enough for all calls that its limit allows, and one more request -/
theorem Machine.allowance_room (m : Machine) : m.maxCallDepth - m.callDepth + 1 < m.allowance := by
  unfold Machine.allowance hostReserve
  omega

theorem Machine.exists_allowance (m : Machine) : ∃ j, m.allowance = j + 2 := by
  have hroom := m.allowance_room
  exact ⟨m.allowance - 2, by omega⟩

/-- a session without settings is reachable -/
theorem reachable_fresh : ∃ m, Reachable m ∧ m.isCompiling = false ∧ m.stack = {} := by
  obtain ⟨dictionary, status, log, hstart, -⟩ := start_ok (s := {}) rfl
  exact ⟨_, .start hstart, rfl, rfl⟩

/-- in a session, a line that defines a word installs its items -/
theorem eval_definition {m : Machine} (hm : m.dictionary.Built natives) (hidle : m.isCompiling = false)
    {line name : String} {items : List Item} (h : Defines m.dictionary line.toList name items) :
    ∃ status log, Machine.eval line m =
      .ok () { m with dictionary := m.dictionary.install ⟨.word, name, items, []⟩, status, log } :=
  evalLine_definition (answerUpTo_evolves _) hidle ((colon_core.append _).lookup hm m.stack) rfl h

theorem Reachable.define {m : Machine} (hm : Reachable m) (hidle : m.isCompiling = false) {line name : String}
    {items : List Item} (h : Defines m.dictionary line.toList name items) :
    ∃ status log, Machine.eval line m =
        .ok () { m with dictionary := m.dictionary.install ⟨.word, name, items, []⟩, status, log } ∧
      Reachable { m with dictionary := m.dictionary.install ⟨.word, name, items, []⟩, status, log } := by
  obtain ⟨status, log, hres⟩ := eval_definition hm.built hidle h
  have hreach := hm.eval line
  rw [hres] at hreach
  exact ⟨status, log, hres, hreach⟩

end ReversePolish
