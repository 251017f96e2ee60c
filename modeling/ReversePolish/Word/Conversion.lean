/-
Conversions to integers, doubles and texts.
-/
import ReversePolish.Word.Effect
import ReversePolish.Word.Validator

namespace ReversePolish

inductive ConversionWord where
  /-- an integer stays as it is -/
  | keep
  | toInteger
  | toDouble
  | toText
deriving DecidableEq

namespace ConversionWord

/-- the value of a number or a fraction as a double -/
def measure : Value → Float
  | .fraction q => q.toDouble
  | v => v.asDouble

def run : ConversionWord → Effect Unit
  | .keep => pure ()
  | .toInteger => do Stack.push (.integer (Double.toInt64 (measure (← Stack.pop))))
  | .toDouble => do Stack.push (.double (measure (← Stack.pop)))
  | .toText => do Stack.push (.string (← Stack.pop).text)

def entries : List (Entry ConversionWord) :=
  [⟨"->INT", .ofKinds [.integer], .keep⟩, ⟨"->INT", .ofKinds [.double], .toInteger⟩,
    ⟨"->INT", .ofKinds [.fraction], .toInteger⟩, ⟨"->FLOAT", .ofKinds [.integer], .toDouble⟩,
    ⟨"->FLOAT", .ofKinds [.double], .toDouble⟩, ⟨"->FLOAT", .ofKinds [.fraction], .toDouble⟩,
    ⟨"->STRING", .kinds [.any], .toText⟩]

end ConversionWord

end ReversePolish
