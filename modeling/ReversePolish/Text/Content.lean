/-
Reading bytes as text. A file or a line of input is text if its bytes are valid UTF-8.
-/

namespace ReversePolish

/-- why there is no text -/
inductive ReadError where
  | missing
  | notText
  | failed (reason : String)

def ReadError.message : ReadError → String
  | .missing => "No such file or directory (os error 2)"
  | .notText => "stream did not contain valid UTF-8"
  | .failed reason => reason

/-- the text of a file, or why it has none -/
abbrev Content := Except ReadError String

def Content.ofBytes (bytes : ByteArray) : Content :=
  match String.fromUTF8? bytes with
  | some text => .ok text
  | none => .error .notText

end ReversePolish
