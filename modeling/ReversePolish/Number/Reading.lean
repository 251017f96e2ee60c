/-
Reading numbers from text.

A decimal is an optional sign, digits with an optional point among them, and an optional exponent; there is at least
one digit before the exponent. Its value is the double nearest to the decimal, ties to even, and an infinity where the
decimal is too large. Naturals are read in a base up to sixteen, letters in either case.
-/
import ReversePolish.Number.Double

namespace ReversePolish.Reading

/-- the value of a digit below sixteen -/
def digitValue? (c : Char) : Option Nat :=
  if '0' ≤ c ∧ c ≤ '9' then some (c.toNat - '0'.toNat)
  else if 'a' ≤ c ∧ c ≤ 'f' then some (c.toNat - 'a'.toNat + 10)
  else if 'A' ≤ c ∧ c ≤ 'F' then some (c.toNat - 'A'.toNat + 10)
  else none

/-- the value of a digit of the given base -/
def digitIn? (base : Nat) (c : Char) : Option Nat :=
  (digitValue? c).filter (· < base)

/-- appends the digits of `s`, in the given base, to the number `acc` -/
def extend? (base : Nat) : Nat → List Char → Option Nat
  | acc, [] => some acc
  | acc, c :: s =>
    match digitIn? base c with
    | some d => extend? base (acc * base + d) s
    | none => none

/-- one or more digits of the given base and nothing else -/
def natural? (base : Nat) : List Char → Option Nat
  | [] => none
  | s => extend? base 0 s

/-- does the text start with a sign, and what follows it? -/
def sign : List Char → Bool × List Char
  | '-' :: s => (true, s)
  | '+' :: s => (false, s)
  | s => (false, s)

/-- the exponent part: nothing, or `e` or `E`, an optional sign and digits -/
def exponent? : List Char → Option Int
  | [] => some 0
  | c :: s =>
    if c = 'e' ∨ c = 'E' then
      let (negative, ds) := sign s
      (natural? 10 ds).map fun n => if negative then -(n : Int) else n
    else none

/-- the double nearest to m * 10^e. Past the range of the doubles on either side the answer is known without the
power: a number of n digits lies from 10^(n-1) up to below 10^n. -/
def scaled (m : Nat) (e : Int) : Float :=
  let size := e + (Nat.toDigits 10 m).length
  if m = 0 ∨ size < -330 then 0.0
  else if 310 < size then Double.infinity
  else Float.ofScientific m (decide (e < 0)) e.natAbs

/-- reads a decimal as a double -/
def double? (text : List Char) : Option Float :=
  let (negative, s) := sign text
  let before := s.takeWhile Char.isDigit
  let rest := s.dropWhile Char.isDigit
  let (after, tail) :=
    match rest with
    | '.' :: r => (r.takeWhile Char.isDigit, r.dropWhile Char.isDigit)
    | r => ([], r)
  match natural? 10 (before ++ after), exponent? tail with
  | some m, some e =>
    let x := scaled m (e - after.length)
    some (if negative then -x else x)
  | _, _ => none

end ReversePolish.Reading
