/-
Vectors of three doubles with components that may be unset.

An unset component is NaN. Between two vectors an unset side contributes nothing, so a vector can be assembled axis by
axis; a number acts on every component, and unset ones stay unset.
-/
import ReversePolish.Number.Decimal

namespace ReversePolish

inductive Axis where
  | x
  | y
  | z
deriving DecidableEq

structure Vec3 where
  x : Float
  y : Float
  z : Float

namespace Vec3

/-- no component is set -/
def unset : Vec3 := ⟨Double.nan, Double.nan, Double.nan⟩

/-- only one component is set -/
def onAxis : Axis → Float → Vec3
  | .x, c => { unset with x := c }
  | .y, c => { unset with y := c }
  | .z, c => { unset with z := c }

def components (v : Vec3) : List Float := [v.x, v.y, v.z]

def isUnset (v : Vec3) : Bool := v.components.all Float.isNaN

def map (f : Float → Float) (v : Vec3) : Vec3 := ⟨f v.x, f v.y, f v.z⟩

def zip (f : Float → Float → Float) (v w : Vec3) : Vec3 := ⟨f v.x w.x, f v.y w.y, f v.z w.z⟩

/-- sum of two components; an unset side is passed over -/
def mergeAdd (a b : Float) : Float :=
  if b.isNaN then (if a.isNaN then Double.nan else a) else if a.isNaN then b else a + b

/-- difference of two components; an unset left side negates the right -/
def mergeSub (a b : Float) : Float :=
  if b.isNaN then (if a.isNaN then Double.nan else a) else if a.isNaN then -b else a - b

def add (v w : Vec3) : Vec3 := zip mergeAdd v w

def sub (v w : Vec3) : Vec3 := zip mergeSub v w

def addScalar (v : Vec3) (n : Float) : Vec3 := v.map (· + n)

def subScalar (v : Vec3) (n : Float) : Vec3 := v.map (· - n)

/-- the number less each component -/
def scalarSub (n : Float) (v : Vec3) : Vec3 := v.map (n - ·)

/-- equal components, two unset ones being equal -/
def same (v w : Vec3) : Bool :=
  (v.components.zip w.components).all fun (a, b) => a == b || (a.isNaN && b.isNaN)

/-- a component with four places, `-` when unset -/
def componentText (c : Float) : String := if c.isNaN then "-" else Decimal.fixed 4 c

def text (v : Vec3) : String := "(" ++ ", ".intercalate (v.components.map componentText) ++ ")"

end Vec3

end ReversePolish
