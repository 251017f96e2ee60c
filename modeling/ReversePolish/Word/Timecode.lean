/-
Words on timecodes. The rate is pushed before the counts. Sums and differences work on frame counts, at the rate of the
timecode or, of two, of the lower one.
-/
import ReversePolish.Word.Effect
import ReversePolish.Word.Validator

namespace ReversePolish

inductive Shift where
  | add
  | sub
deriving DecidableEq

namespace Shift

def name : Shift → String
  | .add => "+"
  | .sub => "-"

/-- modulo 2^64 -/
def apply : Shift → Int64 → Int64 → Int64
  | .add, a, b => a + b
  | .sub, a, b => a - b

end Shift

inductive TimecodeWord where
  | ofFrames
  | ofFields
  | rate
  | frames
  | parts
  /-- two timecodes -/
  | both (shift : Shift)
  /-- a timecode and a number of frames above it -/
  | framesOnTop (shift : Shift)
  /-- a number of frames and a timecode above it -/
  | timecodeOnTop (shift : Shift)
deriving DecidableEq

namespace TimecodeWord

/-- pushes a timecode, or fails over its rate -/
def pushOr (rate : Fraction) : Option Timecode → Effect Unit
  | some t => Stack.push (.timecode t)
  | none => throw (.badRate rate)

def run : TimecodeWord → Effect Unit
  | .ofFrames => do
    let frames ← Stack.popInteger
    let rate ← Stack.popFraction
    pushOr rate (Timecode.ofFrames frames rate)
  | .ofFields => do
    let frame ← Stack.popInteger
    let second ← Stack.popInteger
    let minute ← Stack.popInteger
    let hour ← Stack.popInteger
    let rate ← Stack.popFraction
    pushOr rate (Timecode.ofFields hour minute second frame rate)
  | .rate => do Stack.push (.fraction (← Stack.popTimecode).rate)
  | .frames => do Stack.push (.integer (← Stack.popTimecode).toFrames)
  | .parts => do
    let t ← Stack.popTimecode
    Effect.pushAll
      [.fraction t.rate, .integer t.hour, .integer t.minute, .integer t.second, .integer t.frame]
  | .both shift => do
    let b ← Stack.popTimecode
    let a ← Stack.popTimecode
    pushOr a.rate (Timecode.ofFrames (shift.apply a.toFrames b.toFrames) a.rate)
  | .framesOnTop shift => do
    let n ← Stack.popInteger
    let t ← Stack.popTimecode
    pushOr t.rate (Timecode.ofFrames (shift.apply t.toFrames n) t.rate)
  | .timecodeOnTop shift => do
    let t ← Stack.popTimecode
    let n ← Stack.popInteger
    pushOr t.rate (Timecode.ofFrames (shift.apply n t.toFrames) t.rate)

def entries : List (Entry TimecodeWord) :=
  [⟨"->TC", .ofKinds [.integer, .fraction], .ofFrames⟩,
    ⟨"->TC", .ofKinds [.integer, .integer, .integer, .integer, .fraction], .ofFields⟩,
    ⟨"FR", .ofKinds [.timecode], .rate⟩, ⟨"->FRAMES", .ofKinds [.timecode], .frames⟩,
    ⟨"OBJ->", .ofKinds [.timecode], .parts⟩] ++
    [Shift.add, .sub].flatMap fun shift =>
      [⟨shift.name, .ofKinds [.timecode, .timecode], .both shift⟩,
        ⟨shift.name, .ofKinds [.integer, .timecode], .framesOnTop shift⟩,
        ⟨shift.name, .ofKinds [.timecode, .integer], .timecodeOnTop shift⟩]

end TimecodeWord

end ReversePolish
