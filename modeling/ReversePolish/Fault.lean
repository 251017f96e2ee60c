/-
Why a word fails, and what is said about it.

Every cause has a class, which decides the outcome in a status line and whether that line quotes the rest of the input,
and a message. `raised` holds the faults that a host's own words raise, and `nesting` the one that the machine itself
raises when host words evaluate one another without end.
-/
import ReversePolish.Stack.Basic
import ReversePolish.Text.Blank

namespace ReversePolish

/-- the classes of faults -/
inductive FaultClass where
  /-- malformed comment, text or number -/
  | parse
  /-- unknown word -/
  | dictionary
  /-- known word, but no definition accepts the stack -/
  | param
  /-- the word itself failed -/
  | eval
  /-- misuse of the structural words -/
  | compile
  /-- known word that is not built -/
  | implementation
deriving DecidableEq

namespace FaultClass

/-- the outcome in a status line -/
def outcome : FaultClass → String
  | .parse => "parse error"
  | .dictionary => "not found"
  | .param => "parameter error"
  | .eval => "eval error"
  | .compile => "compile error"
  | .implementation => "implementation error"

/-- does the status line quote the rest of the input? -/
def showsRest : FaultClass → Bool
  | .parse | .eval | .compile => true
  | .dictionary | .param | .implementation => false

/-- the message of a fault of this class about a text -/
def message (text : String) : FaultClass → String
  | .parse => "parse error: " ++ text
  | .dictionary => text ++ ": not found"
  | .param => text ++ ": no definition matches the stack"
  | .eval => text
  | .compile => text
  | .implementation => text ++ ": not implemented"

end FaultClass

inductive Fault where
  | unterminatedComment
  | unterminatedString
  | malformedNumber (word : String)
  | notFound (word : String)
  | noMatch (word : String)
  | badCount (n : Int64)
  | badRate (rate : Fraction)
  | callDepth (word : String) (limit : Nat)
  | stuckCounter (count : Float)
  | noBody
  | noGenerator
  | nesting
  | badName (word : String)
  | strayEnd
  | strayNext
  | unmatchedEnd
  | unmatchedNext
  | missingLiteral
  | stack (error : StackError)
  | unreadable (path reason : String)
  | raised (kind : FaultClass) (text : String)

namespace Fault

def kind : Fault → FaultClass
  | .unterminatedComment | .unterminatedString | .malformedNumber _ => .parse
  | .notFound _ => .dictionary
  | .noMatch _ => .param
  | .badCount _ | .badRate _ | .callDepth _ _ | .stuckCounter _ | .noBody | .noGenerator | .nesting => .eval
  | .badName _ | .strayEnd | .strayNext | .unmatchedEnd | .unmatchedNext | .missingLiteral => .compile
  | .stack (.typeMismatch _ _) => .param
  | .stack _ => .eval
  | .unreadable _ _ => .eval
  | .raised kind _ => kind

def message : Fault → String
  | .unterminatedComment => FaultClass.parse.message "unterminated comment"
  | .unterminatedString => FaultClass.parse.message "unterminated string"
  | .malformedNumber word => FaultClass.parse.message ("malformed number '" ++ word ++ "'")
  | .notFound word => FaultClass.dictionary.message word
  | .noMatch word => FaultClass.param.message word
  | .badCount n => "bad count " ++ Decimal.integer n.toInt
  | .badRate rate => "invalid frame rate " ++ rate.text
  | .callDepth word limit => word ++ ": call depth limit " ++ Decimal.integer limit ++ " exceeded"
  | .stuckCounter count => "FOR: counter cannot step past " ++ Decimal.plain count
  | .noBody => "compiled word has no body"
  | .noGenerator => "random generator state missing"
  | .nesting => "evaluation nested too deeply"
  | .badName word => "'" ++ word ++ "' cannot be used as a name"
  | .strayEnd => "; outside a definition"
  | .strayNext => "NEXT outside a loop"
  | .unmatchedEnd => "; without matching :"
  | .unmatchedNext => "NEXT without matching FOR"
  | .missingLiteral => "string literal missing from body"
  | .stack error => error.message
  | .unreadable path reason => "failed to read " ++ path ++ ": " ++ reason
  | .raised kind text => kind.message text

end Fault

/-- the status line of a word: its outcome and, where the class asks for it, the rest of the input without blanks around
it -/
def statusLine (word : String) (rest : List Char) : Option Fault → String
  | none => word ++ ": ok"
  | some fault =>
    let quoted := Text.trim rest
    if fault.kind.showsRest && !quoted.isEmpty then
      word ++ ": " ++ fault.kind.outcome ++ " '" ++ String.ofList quoted ++ "'"
    else word ++ ": " ++ fault.kind.outcome

end ReversePolish
