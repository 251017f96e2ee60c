/-
Splitting a line into words.

`next` skips blanks, takes the longest run of characters that are no blanks, and drops exactly one blank after it, so
that a word that reads on in the line, such as the one that opens a text, finds what follows it unchanged. `takeUntil`
takes what stands before a delimiter and drops the delimiter.
-/
import ReversePolish.Text.Blank

namespace ReversePolish.Token

/-- the next word and the rest of the line; the word is empty once only blanks remain -/
def next (line : List Char) : List Char × List Char :=
  let s := line.dropWhile Text.isBlank
  (s.takeWhile (!Text.isBlank ·), (s.dropWhile (!Text.isBlank ·)).drop 1)

/-- what stands before the first delimiter and what follows it, if there is one -/
def takeUntil (delimiter : Char) : List Char → Option (List Char × List Char)
  | [] => none
  | c :: s =>
    if c = delimiter then some ([], s)
    else
      match takeUntil delimiter s with
      | some (taken, rest) => some (c :: taken, rest)
      | none => none

/-- a word that is not empty leaves a shorter line -/
theorem next_length (line : List Char) (h : (next line).1 ≠ []) : (next line).2.length < line.length := by
  have hskip : (line.dropWhile Text.isBlank).length ≤ line.length :=
    (List.dropWhile_sublist _).length_le
  generalize hs : line.dropWhile Text.isBlank = s at hskip
  have hsplit : (s.takeWhile (!Text.isBlank ·)).length + (s.dropWhile (!Text.isBlank ·)).length = s.length := by
    rw [← List.length_append, List.takeWhile_append_dropWhile]
  simp only [next, hs] at h ⊢
  have hpos : 0 < (s.takeWhile (!Text.isBlank ·)).length := List.length_pos_iff.2 h
  simp only [List.length_drop]
  omega

/-- the words of a line with the rest after each, up to and with the empty word at its end -/
def split (line : List Char) : List (List Char × List Char) :=
  if _h : (next line).1 = [] then [next line]
  else next line :: split (next line).2
termination_by line.length
decreasing_by exact next_length line _h

end ReversePolish.Token
