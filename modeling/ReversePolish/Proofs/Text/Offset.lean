/-
Cutting a text at a byte offset.

A text is kept as the UTF-8 bytes of its characters, one to four for each. An offset counts bytes, so it may fall inside
a character or beyond the text, and then there is no cut at it. Results:
- `cut_eq_ok_iff`: there is a cut exactly where the text is one text followed by another, and it gives these two;
- `offset?_append`: the offset of the first character with a property is the size of what stands before it;
- `cut_behind`, `cut_first`: the cuts behind a character and before the first character with a property.
-/
import ReversePolish.Text.Blank

namespace ReversePolish.Text

/-- an offset that stands neither between two characters nor at an end of the text -/
structure BadOffset where
  offset : Nat

/-- the text before an offset, and the text from it on -/
def cut (text : String) (offset : Nat) : Except BadOffset (String × String) :=
  if h : String.Pos.Raw.IsValid text ⟨offset⟩ then
    .ok (String.extract text.startPos ⟨⟨offset⟩, h⟩, String.extract ⟨⟨offset⟩, h⟩ text.endPos)
  else .error ⟨offset⟩

/-- the offset of the first character with a property: the bytes of the characters before it -/
def offset? (p : Char → Bool) (text : String) : Option Nat :=
  (text.toList.findIdx? p).map fun i => (String.ofList (text.toList.take i)).utf8ByteSize

/-! ## Where there is a cut -/

theorem cut_append (front back : String) : cut (front ++ back) front.utf8ByteSize = .ok (front, back) := by
  have hvalid : String.Pos.Raw.IsValid (front ++ back) ⟨front.utf8ByteSize⟩ :=
    String.Pos.Raw.isValid_iff_exists_append.2 ⟨front, back, rfl, rfl⟩
  have hfront : String.extract (front ++ back).startPos ⟨⟨front.utf8ByteSize⟩, hvalid⟩ = front := by
    rw [← String.toByteArray_inj, String.toByteArray_extract, String.toByteArray_append]
    exact ByteArray.extract_append_eq_left String.size_toByteArray.symm
  have hback : String.extract ⟨⟨front.utf8ByteSize⟩, hvalid⟩ (front ++ back).endPos = back := by
    rw [← String.toByteArray_inj, String.toByteArray_extract, String.toByteArray_append]
    apply ByteArray.extract_append_eq_right
    · exact String.size_toByteArray.symm
    · rw [String.size_toByteArray, String.size_toByteArray]
      exact String.utf8ByteSize_append
  rw [cut, dif_pos hvalid, hfront, hback]

theorem cut_eq_ok_iff {text front back : String} {offset : Nat} :
    cut text offset = .ok (front, back) ↔ text = front ++ back ∧ offset = front.utf8ByteSize := by
  constructor
  · intro h
    by_cases hvalid : String.Pos.Raw.IsValid text ⟨offset⟩
    · obtain ⟨front', back', rfl, hoffset⟩ := String.Pos.Raw.isValid_iff_exists_append.1 hvalid
      have hsize : offset = front'.utf8ByteSize := congrArg String.Pos.Raw.byteIdx hoffset
      rw [hsize, cut_append] at h
      cases h
      exact ⟨rfl, hsize⟩
    · rw [cut, dif_neg hvalid] at h
      cases h
  · rintro ⟨rfl, rfl⟩
    exact cut_append front back

/-- the second byte of a character is no place for a cut -/
example : (cut "é" 1).toOption = none ∧ (cut "é" 2).toOption = some ("é", "") := by decide

/-- a character takes as many bytes as its encoding has -/
theorem cut_behind (front : List Char) (c : Char) (back : List Char) :
    cut (String.ofList (front ++ c :: back)) ((String.ofList front).utf8ByteSize + c.utf8Size) =
      .ok (String.ofList (front ++ [c]), String.ofList back) := by
  refine cut_eq_ok_iff.2 ⟨?_, ?_⟩
  · rw [← String.ofList_append, List.append_assoc, List.singleton_append]
  · rw [String.ofList_append, String.utf8ByteSize_append, ← String.singleton_eq_ofList, String.utf8ByteSize_singleton]

/-! ## The first character with a property -/

section First

variable {p : Char → Bool} {front : List Char} (hfront : ∀ c ∈ front, p c = false)

include hfront

theorem offset?_eq_none : offset? p (String.ofList front) = none := by
  rw [offset?, String.toList_ofList, List.findIdx?_eq_none_iff.2 hfront]
  rfl

theorem offset?_append {c : Char} (hc : p c = true) (back : List Char) :
    offset? p (String.ofList (front ++ c :: back)) = some (String.ofList front).utf8ByteSize := by
  have hfound : (front ++ c :: back).findIdx? p = some front.length := by
    rw [List.findIdx?_append, List.findIdx?_eq_none_iff.2 hfront, List.findIdx?_cons, if_pos hc]
    simp
  rw [offset?, String.toList_ofList, hfound, Option.map_some, List.take_left]

/-- where no character has the property, the cut is at the end -/
theorem cut_first {back : List Char} (hback : ∀ c t, back = c :: t → p c = true) :
    cut (String.ofList (front ++ back))
        ((offset? p (String.ofList (front ++ back))).getD (String.ofList (front ++ back)).utf8ByteSize) =
      .ok (String.ofList front, String.ofList back) := by
  refine cut_eq_ok_iff.2 ⟨String.ofList_append, ?_⟩
  cases back with
  | nil => rw [List.append_nil, offset?_eq_none hfront, Option.getD_none]
  | cons c t => rw [offset?_append hfront (hback c t rfl), Option.getD_some]

end First

end ReversePolish.Text
