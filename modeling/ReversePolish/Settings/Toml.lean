/-
Settings as text: the part of TOML that settings need.

A text is a list of lines, each blank or an entry `key = value`, with a comment from `#` on. Values are booleans,
integers from 0 up to 2^63 - 1 and arrays of strings, which may go over several lines; no setting takes anything else,
so tables, dates, fractional numbers and all other values are refused as malformed text is.
-/
import ReversePolish.Number.Reading

namespace ReversePolish.Toml

/-- the values that a setting can have -/
inductive Value where
  | boolean (b : Bool)
  | integer (n : Nat)
  | strings (texts : List String)

/-! ## Spaces, comments and line ends -/

def isSpace (c : Char) : Bool := c == ' ' || c == '\t'

/-- the characters of comments and strings: no control characters but the tab -/
def isPlain (c : Char) : Bool := c == '\t' || (' ' ≤ c && c != '\x7f')

def skipSpace (s : List Char) : List Char := s.dropWhile isSpace

/-- a carriage return and a line feed are one line end -/
def joinLineEnds : List Char → List Char
  | '\r' :: '\n' :: s => '\n' :: joinLineEnds s
  | c :: s => c :: joinLineEnds s
  | [] => []

/-- what follows the end of a line, before which spaces and a comment may stand -/
def lineEnd? (s : List Char) : Option (List Char) :=
  let afterComment : List Char → List Char
    | '#' :: s => s.dropWhile isPlain
    | s => s
  match afterComment (skipSpace s) with
  | [] => some []
  | c :: s => if c = '\n' then some s else none

/-- skips spaces, line ends and comments; the flag tells that a comment has started -/
def skipGap : Bool → List Char → List Char
  | _, [] => []
  | false, c :: s =>
    if isSpace c || c == '\n' then skipGap false s else if c = '#' then skipGap true s else c :: s
  | true, c :: s =>
    if c = '\n' then skipGap false s else if isPlain c then skipGap true s else c :: s

/-! ## Strings -/

/-- the character with the given hexadecimal code -/
def coded? (digits : List Char) : Option Char :=
  (Reading.natural? 16 digits).bind fun n => if n.isValidChar then some (Char.ofNat n) else none

/-- the character of a one-letter escape -/
def escaped? (c : Char) : Option Char :=
  [('b', '\x08'), ('t', '\t'), ('n', '\n'), ('f', '\x0c'), ('r', '\r'), ('"', '"'), ('\\', '\\')].lookup c

/-- a string in double quotes, after the first, and what follows it -/
def basicString? : List Char → Option (List Char × List Char)
  | [] => none
  | '"' :: s => some ([], s)
  | '\\' :: 'u' :: a :: b :: c :: d :: s => do
    let char ← coded? [a, b, c, d]
    let (text, rest) ← basicString? s
    return (char :: text, rest)
  | '\\' :: 'U' :: a :: b :: c :: d :: e :: f :: g :: h :: s => do
    let char ← coded? [a, b, c, d, e, f, g, h]
    let (text, rest) ← basicString? s
    return (char :: text, rest)
  | '\\' :: c :: s => do
    let char ← escaped? c
    let (text, rest) ← basicString? s
    return (char :: text, rest)
  | c :: s => do
    if !isPlain c || c == '\\' then none
    let (text, rest) ← basicString? s
    return (c :: text, rest)

/-- a string in single quotes, after the first, and what follows it -/
def literalString? (s : List Char) : Option (List Char × List Char) :=
  let inside (c : Char) : Bool := isPlain c && c != '\''
  match s.dropWhile inside with
  | '\'' :: rest => some (s.takeWhile inside, rest)
  | _ => none

def string? : List Char → Option (String × List Char)
  | '"' :: s => (basicString? s).map fun (text, rest) => (String.ofList text, rest)
  | '\'' :: s => (literalString? s).map fun (text, rest) => (String.ofList text, rest)
  | _ => none

/-! ## Values -/

/-- digits of a base, among which single underscores may stand -/
def grouped? (base : Nat) (s : List Char) : Option Nat :=
  let apart := (s.zip s.tail).all fun (a, b) => !(a == '_' && b == '_')
  if apart && s.head? != some '_' && s.getLast? != some '_' then Reading.natural? base (s.filter (· != '_')) else none

/-- a decimal natural without zeros in front -/
def decimal? (s : List Char) : Option Nat :=
  if s.head? = some '0' ∧ 1 < s.length then none else grouped? 10 s

/-- an integer that is not negative: in base 16, 8 or 2 after a mark, else decimal with an optional sign -/
def integer? : List Char → Option Nat
  | '0' :: 'x' :: s => grouped? 16 s
  | '0' :: 'o' :: s => grouped? 8 s
  | '0' :: 'b' :: s => grouped? 2 s
  | '+' :: s => decimal? s
  | '-' :: s => (decimal? s).filter (· = 0)
  | s => decimal? s

/-- a value without quotes or brackets -/
def scalar? (s : List Char) : Option Value :=
  if s = "true".toList then some (.boolean true)
  else if s = "false".toList then some (.boolean false)
  else ((integer? s).filter (· < 0x8000000000000000)).map .integer

/-- the strings of an array, after its bracket or a comma, and what follows the array; at most n of them -/
def elements? : Nat → List Char → Option (List String × List Char)
  | 0, _ => none
  | n + 1, s =>
    match skipGap false s with
    | ']' :: rest => some ([], rest)
    | s => do
      let (text, s) ← string? s
      match skipGap false s with
      | ']' :: rest => some ([text], rest)
      | ',' :: s => do
        let (texts, rest) ← elements? n s
        return (text :: texts, rest)
      | _ => none

def value? : List Char → Option (Value × List Char)
  | '[' :: s => (elements? (s.length + 1) s).map fun (texts, rest) => (.strings texts, rest)
  | s =>
    let inside (c : Char) : Bool := !isSpace c && c != '\n' && c != '#'
    (scalar? (s.takeWhile inside)).map fun v => (v, s.dropWhile inside)

/-! ## Entries -/

def isKeyChar (c : Char) : Bool := c.isAlphanum || c == '_' || c == '-'

/-- a bare or quoted key, and what follows it -/
def key? (s : List Char) : Option (String × List Char) :=
  match string? s with
  | some found => some found
  | none =>
    match s.takeWhile isKeyChar with
    | [] => none
    | key => some (String.ofList key, s.dropWhile isKeyChar)

/-- an entry and what follows its line -/
def entry? (s : List Char) : Option ((String × Value) × List Char) := do
  let (key, s) ← key? (skipSpace s)
  match skipSpace s with
  | '=' :: s => do
    let (v, s) ← value? (skipSpace s)
    let rest ← lineEnd? s
    return ((key, v), rest)
  | _ => none

/-- the entries of at most n lines -/
def entries? : Nat → List Char → Option (List (String × Value))
  | _, [] => some []
  | 0, _ => none
  | n + 1, s =>
    match lineEnd? s with
    | some rest => entries? n rest
    | none => do
      let (entry, rest) ← entry? s
      let entries ← entries? n rest
      return entry :: entries

/-- the entries of a text, no two of one key; a byte order mark may stand in front -/
def read? (text : String) : Option (List (String × Value)) := do
  let s :=
    match text.toList with
    | '\ufeff' :: s => s
    | s => s
  let entries ← entries? (s.length + 1) (joinLineEnds s)
  if (entries.map Prod.fst).Nodup then some entries else none

end ReversePolish.Toml
