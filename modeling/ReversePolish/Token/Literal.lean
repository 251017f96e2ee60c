/-
Number literals.

A word that starts with a digit, or with `-` and a digit, is meant as a number. With a point in it, it is read as a
decimal and gives a double. Otherwise it is an optional `-` and decimal digits, or hexadecimal digits after `0x`, and
gives an integer of 64 bits. A word meant as a number that cannot be read is malformed.
-/
import ReversePolish.Number.Reading
import ReversePolish.Value.Basic

namespace ReversePolish.Token

/-- what a word stands for -/
inductive Literal where
  /-- no number, so a name -/
  | name
  | number (v : Value)
  | malformed

/-- is the word meant as a number? -/
def isNumeric : List Char → Bool
  | '-' :: c :: _ => c.isDigit
  | c :: _ => c.isDigit
  | [] => false

/-- the magnitude of an integer literal -/
def magnitude? : List Char → Option Nat
  | '0' :: 'x' :: s => Reading.natural? 16 s
  | '0' :: 'X' :: s => Reading.natural? 16 s
  | s => Reading.natural? 10 s

/-- an integer literal, whatever its size -/
def integer? : List Char → Option Int
  | '-' :: s => (magnitude? s).map fun n => -(n : Int)
  | s => (magnitude? s).map fun n => (n : Int)

/-- the literal that a word is -/
def literal (word : List Char) : Literal :=
  if !isNumeric word then .name
  else if word.contains '.' then
    match Reading.double? word with
    | some x => .number (.double x)
    | none => .malformed
  else
    match integer? word with
    | some n => if Fraction.fits n then .number (.integer (Int64.ofInt n)) else .malformed
    | none => .malformed

end ReversePolish.Token
