/-
What the machine reports while it runs. An event has a level, the part of the program it comes from, and a message with
its details.
-/
import ReversePolish.Fault

namespace ReversePolish

inductive Level where
  | debug
  | info
  | warn
deriving DecidableEq

def Level.name : Level → String
  | .debug => "DEBUG"
  | .info => "INFO"
  | .warn => "WARN"

/-- is the first level at least as severe as the second? -/
def Level.atLeast : Level → Level → Bool
  | _, .debug => true
  | .debug, _ => false
  | _, .info => true
  | .info, .warn => false
  | .warn, .warn => true

inductive Event where
  /-- tracing: a word is about to be evaluated -/
  | word (word rest : String)
  /-- tracing: a word was evaluated -/
  | done (status : String)
  /-- the stack is shown, first its depth and then each item from the top -/
  | stackDepth (depth : Nat)
  | stackItem (position : Nat) (kind : Kind) (text : String)
  | fileStopped (line : Nat) (status : String)
  | defined (name body : String)
  | failed (status message : String)
  | vocabularyReady (words : Nat)
  | sessionReady (words preludeLines : Nat)

namespace Event

def level : Event → Level
  | .word _ _ | .done _ | .stackDepth _ | .stackItem _ _ _ => .info
  | .fileStopped _ _ => .warn
  | .defined _ _ | .failed _ _ | .vocabularyReady _ | .sessionReady _ _ => .debug

/-- the part of the program that reports -/
def target : Event → String
  | .word _ _ | .done _ => "rpn::trace"
  | .stackDepth _ | .stackItem _ _ _ => "rpn_stdlib::stack"
  | .fileStopped _ _ | .defined _ _ | .failed _ _ => "rpn_lang::interp"
  | .vocabularyReady _ => "rpn_stdlib"
  | .sessionReady _ _ => "rpn"

def message : Event → String
  | .word w rest => "eval word=" ++ w ++ " rest=" ++ rest
  | .done status => "done status=" ++ status
  | .stackDepth depth => ".S depth=" ++ Decimal.integer depth
  | .stackItem position kind text =>
    Text.padLeft 4 (Decimal.integer position) ++ ": " ++ Text.padRight 10 kind.name ++ " " ++ text
  | .fileStopped line status =>
    "file evaluation stopped line=" ++ Decimal.integer line ++ " status=" ++ status
  | .defined name body => "defined word word=" ++ name ++ " body=" ++ body
  | .failed status message => "evaluation failed status=" ++ status ++ " error=" ++ message
  | .vocabularyReady words => "registered standard packages words=" ++ Decimal.integer words
  | .sessionReady words preludeLines =>
    "session ready words=" ++ Decimal.integer words ++ " prelude=" ++ Decimal.integer preludeLines

def text (e : Event) : String := e.level.name ++ " " ++ e.target ++ " " ++ e.message

end Event

end ReversePolish
