/-
The words that act on the data stack alone, all families together.
-/
import ReversePolish.Word.Arithmetic
import ReversePolish.Word.Container
import ReversePolish.Word.Conversion
import ReversePolish.Word.Fraction
import ReversePolish.Word.Logic
import ReversePolish.Word.Stacking
import ReversePolish.Word.Timecode
import ReversePolish.Word.Vector

namespace ReversePolish

inductive Operator where
  | stack (w : StackWord)
  | counted (w : CountedWord)
  | logic (w : LogicWord)
  | math (w : MathWord)
  | conversion (w : ConversionWord)
  | vector (w : VectorWord)
  | map (w : MapWord)
  | list (w : ListWord)
  | fraction (w : FractionWord)
  | timecode (w : TimecodeWord)
deriving DecidableEq

def Operator.run : Operator → Effect Unit
  | .stack w => w.run
  | .counted w => w.run
  | .logic w => w.run
  | .math w => w.run
  | .conversion w => w.run
  | .vector w => w.run
  | .map w => w.run
  | .list w => w.run
  | .fraction w => w.run
  | .timecode w => w.run

end ReversePolish
