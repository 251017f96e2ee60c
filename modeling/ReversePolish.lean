import ReversePolish.CommandLine
import ReversePolish.Compilation
import ReversePolish.Dictionary
import ReversePolish.Fault
import ReversePolish.Fraction
import ReversePolish.Keyed
import ReversePolish.Machine.Event
import ReversePolish.Machine.Run
import ReversePolish.Machine.State
import ReversePolish.Machine.Step
import ReversePolish.Main
import ReversePolish.Number.Decimal
import ReversePolish.Number.Double
import ReversePolish.Number.Rank
import ReversePolish.Number.Reading
import ReversePolish.Proofs.Machine.Evolution
import ReversePolish.Proofs.Token
import ReversePolish.Random
import ReversePolish.Session
import ReversePolish.Settings
import ReversePolish.Settings.Toml
import ReversePolish.Stack.Basic
import ReversePolish.Stack.Call
import ReversePolish.Stack.Shuffle
import ReversePolish.Text.Blank
import ReversePolish.Text.Content
import ReversePolish.Timecode
import ReversePolish.Token
import ReversePolish.Token.Literal
import ReversePolish.Value.Basic
import ReversePolish.Value.Order
import ReversePolish.Value.Printer
import ReversePolish.Value.Source
import ReversePolish.Vec3
import ReversePolish.Vocabulary
import ReversePolish.Word.Arithmetic
import ReversePolish.Word.Container
import ReversePolish.Word.Conversion
import ReversePolish.Word.Definition
import ReversePolish.Word.Effect
import ReversePolish.Word.Fraction
import ReversePolish.Word.Logic
import ReversePolish.Word.Operator
import ReversePolish.Word.Stacking
import ReversePolish.Word.Timecode
import ReversePolish.Word.Validator
import ReversePolish.Word.Vector
import ReversePolish.Proofs.Machine.Balance
import ReversePolish.Proofs.Dictionary
import ReversePolish.Proofs.Machine.Line
import ReversePolish.Proofs.Machine.Capture
import ReversePolish.Proofs.Session
import ReversePolish.Proofs.Compilation.Sound
import ReversePolish.Proofs.Compilation.Call
import ReversePolish.Proofs.Compilation.Atomic
import ReversePolish.Proofs.Fraction
import ReversePolish.Proofs.Number.Decimal
import ReversePolish.Proofs.Number.Double
import ReversePolish.Proofs.Timecode
import ReversePolish.Proofs.Timecode.Order
import ReversePolish.Proofs.Value.Source
import ReversePolish.Proofs.Stack.Front
import ReversePolish.Proofs.Word.Limit
import ReversePolish.Proofs.Word.Operand
import ReversePolish.Proofs.Word.Draw
import ReversePolish.Proofs.Word.Cover
import ReversePolish.Proofs.Word.Local
import ReversePolish.Proofs.Machine.Lockstep
import ReversePolish.Proofs.Machine.Limits
import ReversePolish.Proofs.Machine.Compose
import ReversePolish.Proofs.Machine.Termination
import ReversePolish.Proofs.Machine.Trace
import ReversePolish.Proofs.Machine.Scope
import ReversePolish.Proofs.Compilation.Replay
import ReversePolish.Proofs.Compilation.Typed
import ReversePolish.Proofs.Fraction.Arithmetic
import ReversePolish.Proofs.Dictionary.History
import ReversePolish.Proofs.Stack.Row
import ReversePolish.Proofs.Stack.Bounded
import ReversePolish.Proofs.Stack.Shuffle
import ReversePolish.Proofs.Text.Offset
import ReversePolish.Proofs.Token.Split
import ReversePolish.Proofs.Word.Keep
import ReversePolish.Proofs.Word.Spend
import ReversePolish.Proofs.Timecode.Fields
import ReversePolish.Proofs.Fraction.Division
import ReversePolish.Proofs.Timecode.Sum
import ReversePolish.Proofs.Fraction.Power
import ReversePolish.Proofs.Word.Power
import ReversePolish.Proofs.Compilation.Redefinition
import ReversePolish.Proofs.Dictionary.Dispatch
import ReversePolish.Proofs.Random
import ReversePolish.Proofs.Word.Rebuild
import ReversePolish.Proofs.Token.Literal
import ReversePolish.Proofs.Value.Vector
