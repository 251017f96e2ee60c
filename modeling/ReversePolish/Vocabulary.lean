/-
The words that a machine starts with, and the standard vocabulary.

The structural words are part of every machine. The standard vocabulary comes in packages, each of native definitions
and of words defined in source on top of them, and the packages are added in a set order, which is the order in which
definitions of one name are tried.
-/
import ReversePolish.Machine.Run

namespace ReversePolish

/-- a name and a definition of it -/
abbrev Named := String × Definition

/-- the definitions of a family of words on the data stack -/
def Operator.named {α : Type} (make : α → Operator) (entries : List (Entry α)) : List Named :=
  entries.map fun e => (e.name, ⟨e.validator, .operator (make e.word), .none⟩)

/-! ## Structural words -/

namespace CoreWord

def entries : List (Entry CoreWord) :=
  [⟨":", .depth 0, .define⟩, ⟨"(", .depth 0, .comment⟩, ⟨stringWord, .depth 0, .string⟩,
    ⟨"FOR", .ofKinds [.integer, .integer], .loop⟩, ⟨"FOR", .ofKinds [.integer, .double], .loop⟩,
    ⟨"FOR", .ofKinds [.double, .integer], .loop⟩, ⟨"FOR", .ofKinds [.double, .double], .loop⟩,
    ⟨"TRACE", .ofKinds [.boolean], .trace⟩, ⟨"<true>", .depth 0, .boolean true⟩,
    ⟨"<false>", .depth 0, .boolean false⟩, ⟨";", .depth 0, .strayEnd⟩, ⟨"NEXT", .depth 0, .strayNext⟩]

/-- the words that work on the machine itself are in its ownership -/
def context : CoreWord → Context
  | .boolean _ => .none
  | _ => .owner

def definitions : List Named :=
  entries.map fun e => (e.name, ⟨e.validator, .core e.word, e.word.context⟩)

end CoreWord

/-! ## Packages -/

structure Package where
  definitions : List Named
  /-- lines that define further words -/
  source : List String := []

namespace Package

def stack : Package where
  definitions :=
    Operator.named .stack StackWord.entries ++ Operator.named .counted CountedWord.entries ++
      [(".S", ⟨.depth 0, .showStack, .none⟩)]
  source := [": DUP2 2 DUPN ;", ": DROP2 DROP DROP ;"]

def logic : Package where
  definitions := Operator.named .logic LogicWord.entries

def math : Package where
  definitions :=
    Operator.named .math MathWord.entries ++
      [("RAND", ⟨.depth 0, .random .integer, .extension .generator⟩),
        ("DRAND", ⟨.depth 0, .random .unit, .extension .generator⟩),
        ("RDZ", ⟨.ofKinds [.integer], .random .seed, .extension .generator⟩)]

def types : Package where
  definitions :=
    Operator.named .conversion ConversionWord.entries ++ Operator.named .vector VectorWord.entries ++
      Operator.named .map MapWord.entries ++ Operator.named .list ListWord.entries
  source :=
    [": VEC3->\x7bxy\x7d ( <v3> <v3'> ) VEC3-> DROP ->\x7by\x7d SWAP ->\x7bx\x7d + ;",
      ": ->\x7bxy\x7d ( x y -- <v3'> ) ->\x7by\x7d SWAP ->\x7bx\x7d + ;"]

def fraction : Package where
  definitions := Operator.named .fraction FractionWord.entries

def timecode : Package where
  definitions := Operator.named .timecode TimecodeWord.entries

/-- the standard packages, in the order of their registration -/
def standard : List Package := [stack, logic, math, types, fraction, timecode]

end Package

/-! ## Registration -/

/-- adds definitions one after the other -/
def Dictionary.registerAll (d : Dictionary) (definitions : List Named) : Dictionary :=
  definitions.foldl (fun d (name, definition) => (d.register name definition).2) d

namespace Machine

/-- a machine with the structural words only -/
def core : Machine := { dictionary := ({} : Dictionary).registerAll CoreWord.definitions }

/-- evaluates lines one after the other -/
def evalAll : List String → MachineM Unit
  | [] => pure ()
  | line :: rest => do
    eval line
    evalAll rest

/-- adds a package: its definitions, then the words of its source -/
def addPackage (p : Package) : MachineM Unit := do
  modify fun m => { m with dictionary := m.dictionary.registerAll p.definitions }
  evalAll p.source

def addPackages : List Package → MachineM Unit
  | [] => pure ()
  | p :: rest => do
    addPackage p
    addPackages rest

/-- adds the standard vocabulary -/
def addStandard : MachineM Unit := do
  addPackages Package.standard
  modify fun m => m.record (.vocabularyReady m.dictionary.size)

end Machine

end ReversePolish
