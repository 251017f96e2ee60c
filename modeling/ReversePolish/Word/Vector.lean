/-
Words on vectors: sums and differences with vectors and numbers on either side, construction whole or on one axis, and
taking apart.
-/
import ReversePolish.Value.Source
import ReversePolish.Word.Effect
import ReversePolish.Word.Validator

namespace ReversePolish

inductive VectorWord where
  | add
  | sub
  /-- a vector and a number above it -/
  | addNumber
  | subNumber
  /-- a number and a vector above it -/
  | numberAdd
  | numberSub
  | make
  | onAxis (axis : Axis)
  | parts
deriving DecidableEq

namespace VectorWord

/-- two vectors to one -/
def onVectors (f : Vec3 → Vec3 → Vec3) : Effect Unit := do
  let b ← Stack.popVec3
  let a ← Stack.popVec3
  Stack.push (.vec3 (f a b))

/-- a vector and a number above it -/
def numberOnTop (f : Vec3 → Float → Vec3) : Effect Unit := do
  let n ← Stack.popAsDouble
  let v ← Stack.popVec3
  Stack.push (.vec3 (f v n))

/-- a number and a vector above it -/
def vectorOnTop (f : Float → Vec3 → Vec3) : Effect Unit := do
  let v ← Stack.popVec3
  let n ← Stack.popAsDouble
  Stack.push (.vec3 (f n v))

def run : VectorWord → Effect Unit
  | .add => onVectors Vec3.add
  | .sub => onVectors Vec3.sub
  | .addNumber => numberOnTop Vec3.addScalar
  | .subNumber => numberOnTop Vec3.subScalar
  | .numberAdd => vectorOnTop fun n v => v.addScalar n
  | .numberSub => vectorOnTop Vec3.scalarSub
  | .make => do
    let z ← Stack.popAsDouble
    let y ← Stack.popAsDouble
    let x ← Stack.popAsDouble
    Stack.push (.vec3 ⟨x, y, z⟩)
  | .onAxis axis => do Stack.push (.vec3 (Vec3.onAxis axis (← Stack.popAsDouble)))
  | .parts => do
    let v ← Stack.popVec3
    Effect.pushAll (v.components.map .double)

/-- the long name of the word that puts a number on one axis -/
def axisName : Axis → String
  | .x => "->VEC3x"
  | .y => "->VEC3y"
  | .z => "->VEC3z"

def entries : List (Entry VectorWord) :=
  [⟨"+", .ofKinds [.vec3, .vec3], .add⟩, ⟨"-", .ofKinds [.vec3, .vec3], .sub⟩] ++
    (Kind.numbers.flatMap fun n =>
      [⟨"+", .ofKinds [n, .vec3], .addNumber⟩, ⟨"-", .ofKinds [n, .vec3], .subNumber⟩,
        ⟨"+", .ofKinds [.vec3, n], .numberAdd⟩, ⟨"-", .ofKinds [.vec3, n], .numberSub⟩]) ++
    (Kind.numbers.flatMap fun x => Kind.numbers.flatMap fun y => Kind.numbers.map fun z =>
      ⟨"->VEC3", .ofKinds [z, y, x], .make⟩) ++
    ([Axis.x, .y, .z].flatMap fun axis => Kind.numbers.flatMap fun n =>
      [⟨axisName axis, .ofKinds [n], .onAxis axis⟩, ⟨axis.word, .ofKinds [n], .onAxis axis⟩]) ++
    [⟨"VEC3->", .ofKinds [.vec3], .parts⟩, ⟨"OBJ->", .ofKinds [.vec3], .parts⟩]

end VectorWord

end ReversePolish
