/-
Arithmetic on integers and doubles.

Two integers give an integer, modulo 2^64, where the operation has an integer form; any double makes the result a
double. Division by zero gives the end of the range on the side of the dividend, and powers stay within the range.
Angles are in degrees.
-/
import ReversePolish.Word.Effect
import ReversePolish.Word.Validator

namespace ReversePolish

/-! ## Integer forms -/

/-- division towards zero; by zero it gives 0 or the largest magnitude with the sign of the dividend -/
def integerQuotient (a b : Int64) : Int64 :=
  if b = 0 then
    if a = 0 then 0 else if 0 < a then Int64.maxValue else -Int64.maxValue
  else a / b

/-- the power held within the range. From an exponent of 64 on, a power is one of -1, 0 and 1 or out of range, and only
the parity of the exponent counts. -/
def clampedPower (a : Int64) (e : Nat) : Int64 :=
  Int64.ofIntClamp (Int.pow a.toInt (if e ≤ 64 then e else 64 + e % 2))

/-- largest exponent that is told from others -/
def maxExponent : Nat := 0xffffffff

/-- a negative exponent gives a double -/
def integerPower (a b : Int64) : Value :=
  if b < 0 then .double ((Double.ofInt64 a).pow (Double.ofInt64 b))
  else .integer (clampedPower a (min b.toInt.toNat maxExponent))

/-! ## Binary operations -/

inductive BinaryOp where
  | add
  | sub
  | mul
  | div
  | pow
  | min
  | max
  | hypot
  | atan2
deriving DecidableEq

/-- 2^600 -/
def farScale : Float := Float.ofBits 0x6570000000000000

/-- the length of the diagonal; sides far from 1 are scaled by a power of two, so their squares stay in range -/
def hypotenuse (x y : Float) : Float :=
  let side := Double.max x.abs y.abs
  if x.isInf || y.isInf then Double.infinity
  else if 1e150 < side then
    let (x, y) := (x / farScale, y / farScale)
    (x * x + y * y).sqrt * farScale
  else if side < 1e-150 then
    let (x, y) := (x * farScale, y * farScale)
    (x * x + y * y).sqrt / farScale
  else (x * x + y * y).sqrt

namespace BinaryOp

def name : BinaryOp → String
  | .add => "+"
  | .sub => "-"
  | .mul => "*"
  | .div => "/"
  | .pow => "^"
  | .min => "MIN"
  | .max => "MAX"
  | .hypot => "HYPOT"
  | .atan2 => "ATAN2"

/-- the integer form, where there is one -/
def onIntegers? : BinaryOp → Option (Int64 → Int64 → Value)
  | .add => some fun a b => .integer (a + b)
  | .sub => some fun a b => .integer (a - b)
  | .mul => some fun a b => .integer (a * b)
  | .div => some fun a b => .integer (integerQuotient a b)
  | .pow => some integerPower
  | .min => some fun a b => .integer (if a ≤ b then a else b)
  | .max => some fun a b => .integer (if a ≤ b then b else a)
  | .hypot => none
  | .atan2 => none

def onDoubles : BinaryOp → Float → Float → Float
  | .add => (· + ·)
  | .sub => (· - ·)
  | .mul => (· * ·)
  | .div => (· / ·)
  | .pow => Float.pow
  | .min => Double.min
  | .max => Double.max
  | .hypot => hypotenuse
  | .atan2 => fun y x => Double.degrees (Float.atan2 y x)

def apply (op : BinaryOp) (a b : Value) : Value :=
  match op.onIntegers?, a, b with
  | some f, .integer x, .integer y => f x y
  | _, _, _ => .double (op.onDoubles a.asDouble b.asDouble)

end BinaryOp

/-! ## Unary operations -/

inductive UnaryOp where
  | inv
  | sq
  | sqrt
  | cos
  | sin
  | tan
  | acos
  | asin
  | atan
  | exp
  | ln
  | log2
  | log10
  | negate
deriving DecidableEq

namespace UnaryOp

def name : UnaryOp → String
  | .inv => "INV"
  | .sq => "SQ"
  | .sqrt => "SQRT"
  | .cos => "COS"
  | .sin => "SIN"
  | .tan => "TAN"
  | .acos => "ACOS"
  | .asin => "ASIN"
  | .atan => "ATAN"
  | .exp => "EXP"
  | .ln => "LN"
  | .log2 => "LN2"
  | .log10 => "LOG"
  | .negate => "CHS"

def onIntegers? : UnaryOp → Option (Int64 → Int64)
  | .sq => some fun a => a * a
  | .negate => some fun a => -a
  | _ => none

def onDoubles : UnaryOp → Float → Float
  | .inv => fun x => 1.0 / x
  | .sq => fun x => x * x
  | .sqrt => Float.sqrt
  | .cos => fun x => (Double.radians x).cos
  | .sin => fun x => (Double.radians x).sin
  | .tan => fun x => (Double.radians x).tan
  | .acos => fun x => Double.degrees x.acos
  | .asin => fun x => Double.degrees x.asin
  | .atan => fun x => Double.degrees x.atan
  | .exp => Float.exp
  | .ln => Float.log
  | .log2 => Float.log2
  | .log10 => Float.log10
  | .negate => fun x => -x

def apply (op : UnaryOp) (a : Value) : Value :=
  match op.onIntegers?, a with
  | some f, .integer x => .integer (f x)
  | _, _ => .double (op.onDoubles a.asDouble)

end UnaryOp

inductive Rounding where
  | round
  | ceil
  | floor
deriving DecidableEq

def Rounding.apply : Rounding → Float → Float
  | .round => Double.round
  | .ceil => Double.ceil
  | .floor => Double.floor

/-- the real roots of a x^2 + b x + c, the one with the positive square root first; NaN when there are none -/
def quadraticRoots (a b c : Float) : Float × Float :=
  let discriminant := b * b - 4.0 * a * c
  if discriminant < 0.0 then (Double.nan, Double.nan)
  else
    let root := discriminant.sqrt
    ((-b + root) / (2.0 * a), (-b - root) / (2.0 * a))

/-! ## Words -/

inductive MathWord where
  | binary (op : BinaryOp)
  | unary (op : UnaryOp)
  | rounding (r : Rounding)
  | quadratic
  | constant (x : Float)
deriving DecidableEq

namespace MathWord

def run : MathWord → Effect Unit
  | .binary op => do
    let (a, b) ← Effect.popPair
    Stack.push (op.apply a b)
  | .unary op => do Stack.push (op.apply (← Stack.pop))
  | .rounding r => do Stack.push (.double (r.apply (← Stack.popDouble)))
  | .quadratic => do
    let c ← Stack.popAsDouble
    let (a, b) ← Effect.popPair
    let (first, second) := quadraticRoots a.asDouble b.asDouble c
    Stack.push (.double first)
    Stack.push (.double second)
  | .constant x => Stack.push (.double x)

/-- one entry for each pair of kinds of numbers, the upper operand varying fastest -/
def binaryEntries (op : BinaryOp) : List (Entry MathWord) :=
  Kind.numbers.flatMap fun below => Kind.numbers.map fun top => ⟨op.name, .ofKinds [top, below], .binary op⟩

def unaryEntries (op : UnaryOp) : List (Entry MathWord) :=
  Kind.numbers.map fun top => ⟨op.name, .ofKinds [top], .unary op⟩

def entries : List (Entry MathWord) :=
  [BinaryOp.add, .sub, .mul, .div, .pow, .min, .max, .hypot, .atan2].flatMap binaryEntries ++
    [UnaryOp.inv, .sq, .sqrt, .cos, .sin, .tan, .acos, .asin, .atan, .exp, .ln, .log2, .log10, .negate].flatMap
      unaryEntries ++
    [⟨"ROUND", .ofKinds [.double], .rounding .round⟩, ⟨"CEIL", .ofKinds [.double], .rounding .ceil⟩,
      ⟨"FLOOR", .ofKinds [.double], .rounding .floor⟩] ++
    (Kind.numbers.flatMap fun a => Kind.numbers.flatMap fun b => Kind.numbers.map fun c =>
      ⟨"QUAD", .ofKinds [c, b, a], .quadratic⟩) ++
    [⟨"k_PI", .depth 0, .constant Double.pi⟩, ⟨"k_E", .depth 0, .constant Double.e⟩]

end MathWord

end ReversePolish
