/-
White space, trimming, padding and lines.

Two classes of white space are used. Words are separated by the five ASCII blanks (`isBlank`); trimming removes every
character with the Unicode property White_Space (`isWhite`), which contains them.
-/

namespace ReversePolish.Text

/-- space, tab, line feed, form feed, carriage return -/
def isBlank (c : Char) : Bool :=
  c == ' ' || c == '\t' || c == '\n' || c == '\x0c' || c == '\r'

/-- the code points with the property White_Space, as inclusive ranges -/
def whiteRanges : List (Nat × Nat) :=
  [(0x09, 0x0d), (0x20, 0x20), (0x85, 0x85), (0xa0, 0xa0), (0x1680, 0x1680), (0x2000, 0x200a), (0x2028, 0x2029),
    (0x202f, 0x202f), (0x205f, 0x205f), (0x3000, 0x3000)]

def isWhite (c : Char) : Bool :=
  whiteRanges.any fun (low, high) => decide (low ≤ c.toNat ∧ c.toNat ≤ high)

/-- every separator of words is white space -/
theorem isWhite_of_isBlank {c : Char} (h : isBlank c = true) : isWhite c = true := by
  simp only [isBlank, Bool.or_eq_true, beq_iff_eq] at h
  rcases h with (((h | h) | h) | h) | h <;> subst h <;> decide

/-- removes white space from both ends -/
def trim (s : List Char) : List Char :=
  ((s.dropWhile isWhite).reverse.dropWhile isWhite).reverse

/-- right-aligned in `width` characters -/
def padLeft (width : Nat) (s : String) : String :=
  String.ofList (List.replicate (width - s.length) ' ') ++ s

/-- left-aligned in `width` characters -/
def padRight (width : Nat) (s : String) : String :=
  s ++ String.ofList (List.replicate (width - s.length) ' ')

/-! ## Lines, of characters or of bytes -/

variable {α : Type} [DecidableEq α]

/-- drops one mark at the end -/
def dropLastMark (mark : α) (s : List α) : List α :=
  if s.getLast? = some mark then s.dropLast else s

/-- the pieces between marks; there is always a last one, perhaps empty -/
def pieces (mark : α) : List α → List (List α)
  | [] => [[]]
  | c :: s =>
    if c = mark then [] :: pieces mark s
    else
      match pieces mark s with
      | piece :: rest => (c :: piece) :: rest
      | [] => [[c]]

/-- a line ends with a line feed, before which one carriage return is dropped; what follows the last line feed is a line
of its own unless it is empty -/
def linesBy (feed ret : α) (s : List α) : List (List α) :=
  (pieces feed s).dropLast.map (dropLastMark ret) ++ ((pieces feed s).getLast?.filter (!·.isEmpty)).toList

/-- the lines of a text -/
def lines (s : List Char) : List (List Char) := linesBy '\n' '\r' s

/-- the lines of bytes that are to be read one by one -/
def byteLines (bytes : List UInt8) : List (List UInt8) := linesBy 10 13 bytes

end ReversePolish.Text
