/-
Words on fractions. An operation with a fraction on either side gives a fraction: an integer counts exactly, a double
through its approximation.
-/
import ReversePolish.Word.Effect
import ReversePolish.Word.Validator

namespace ReversePolish

inductive FractionOp where
  | add
  | sub
  | mul
  | div
  | pow
deriving DecidableEq

namespace FractionOp

def name : FractionOp → String
  | .add => "+"
  | .sub => "-"
  | .mul => "*"
  | .div => "/"
  | .pow => "^"

def apply : FractionOp → Fraction → Fraction → Fraction
  | .add => Fraction.add
  | .sub => Fraction.sub
  | .mul => Fraction.mul
  | .div => Fraction.div
  | .pow => Fraction.power

end FractionOp

inductive FractionWord where
  | make
  | ofDouble
  | toDouble
  | parts
  | reciprocal
  | negate
  | square
  | squareRoot
  | binary (op : FractionOp)
deriving DecidableEq

namespace FractionWord

/-- an operand as a fraction -/
def ofValue : Value → Fraction
  | .fraction q => q
  | .integer n => Fraction.ofInteger n
  | v => Fraction.ofDouble v.asDouble

/-- a fraction to a fraction -/
def onFraction (f : Fraction → Fraction) : Effect Unit := do
  Stack.push (.fraction (f (← Stack.popFraction)))

def run : FractionWord → Effect Unit
  | .make => do
    let den ← Stack.popInteger
    let num ← Stack.popInteger
    Stack.push (.fraction (Fraction.make num den))
  | .ofDouble => do Stack.push (.fraction (Fraction.ofDouble (← Stack.popDouble)))
  | .toDouble => do Stack.push (.double (← Stack.popFraction).toDouble)
  | .parts => do
    let q ← Stack.popFraction
    Effect.pushAll [.integer q.num, .integer q.den]
  | .reciprocal => onFraction Fraction.reciprocal
  | .negate => onFraction Fraction.neg
  | .square => onFraction fun q => q.mul q
  | .squareRoot => onFraction Fraction.squareRoot
  | .binary op => do
    let (a, b) ← Effect.popPair
    Stack.push (.fraction (op.apply (ofValue a) (ofValue b)))

/-- the operands of a binary operation, top first -/
def operands : List (List Kind) :=
  [[.integer, .fraction], [.double, .fraction], [.fraction, .integer], [.fraction, .double], [.fraction, .fraction]]

def entries : List (Entry FractionWord) :=
  [⟨"->FRAC", .ofKinds [.integer, .integer], .make⟩, ⟨"->FRAC", .ofKinds [.double], .ofDouble⟩,
    ⟨"->DOUBLE", .ofKinds [.fraction], .toDouble⟩, ⟨"OBJ->", .ofKinds [.fraction], .parts⟩,
    ⟨"INV", .ofKinds [.fraction], .reciprocal⟩, ⟨"NEG", .ofKinds [.fraction], .negate⟩,
    ⟨"SQ", .ofKinds [.fraction], .square⟩, ⟨"SQRT", .ofKinds [.fraction], .squareRoot⟩] ++
    [FractionOp.add, .sub, .mul, .div, .pow].flatMap fun op =>
      operands.map fun kinds => ⟨op.name, .ofKinds kinds, .binary op⟩

end FractionWord

end ReversePolish
