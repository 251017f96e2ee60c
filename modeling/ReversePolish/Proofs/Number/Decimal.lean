/-
Decimal text of integers reads back.

`extend?_digits` says what a run of decimal digits reads as, and `literal_integer_text` that the text of every 64-bit
integer is a word of a line that stands for that integer.
-/
import ReversePolish.Proofs.Token

namespace ReversePolish

/-! ## Reading digits -/

namespace Reading

theorem digitIn?_of_isDigit {c : Char} (h : c.isDigit = true) : digitIn? 10 c = some (c.toNat - '0'.toNat) := by
  have hrange : '0' ≤ c ∧ c ≤ '9' := by
    simp only [Char.isDigit, Bool.and_eq_true, decide_eq_true_eq] at h
    exact h
  have hlt : c.toNat - '0'.toNat < 10 := by
    have hle : c.toNat ≤ '9'.toNat := hrange.2
    have hnine : '9'.toNat = 57 := rfl
    have hzero : '0'.toNat = 48 := rfl
    omega
  rw [digitIn?, digitValue?, if_pos hrange, Option.filter_some, if_pos (by simpa using hlt)]

/-- a run of decimal digits -/
theorem extend?_digits {s : List Char} (h : ∀ c ∈ s, c.isDigit = true) (acc : Nat) :
    extend? 10 acc s = some (Nat.ofDigitChars 10 s acc) := by
  induction s generalizing acc with
  | nil => rfl
  | cons c s ih =>
    have hc : c.isDigit = true := h c List.mem_cons_self
    simp only [extend?, digitIn?_of_isDigit hc]
    rw [ih (fun c' hc' => h c' (List.mem_cons_of_mem c hc')), Nat.mul_comm acc 10]
    rfl

theorem natural?_digits (n : Nat) : natural? 10 (Decimal.digits n) = some n := by
  have hread : natural? 10 (Decimal.digits n) = extend? 10 0 (Decimal.digits n) := by
    cases hd : Decimal.digits n with
    | nil => exact absurd hd Nat.toDigits_ne_nil
    | cons c s => rfl
  have hdigits : ∀ c ∈ Decimal.digits n, c.isDigit = true :=
    fun c hc => Nat.isDigit_of_mem_toDigits (by decide) (by decide) hc
  rw [hread, extend?_digits hdigits, Decimal.digits, Nat.ofDigitChars_ten_toDigits]

end Reading

/-! ## Words of digits -/

namespace Decimal

theorem isDigit_of_mem_digits {n : Nat} {c : Char} (h : c ∈ digits n) : c.isDigit = true :=
  Nat.isDigit_of_mem_toDigits (by decide) (by decide) h

/-- the digits of a number, with or without a sign in front -/
theorem integer_toList (n : Int) :
    (integer n).toList = digits n.natAbs ∧ 0 ≤ n ∨ (integer n).toList = '-' :: digits n.natAbs ∧ n < 0 := by
  unfold integer
  rw [String.toList_ofList]
  split
  · exact .inr ⟨rfl, by assumption⟩
  · exact .inl ⟨rfl, by omega⟩

theorem mem_integer {n : Int} {c : Char} (h : c ∈ (integer n).toList) : c = '-' ∨ c.isDigit = true := by
  rcases integer_toList n with ⟨htext, -⟩ | ⟨htext, -⟩ <;> rw [htext] at h
  · exact .inr (isDigit_of_mem_digits h)
  · rcases List.mem_cons.1 h with rfl | h
    · exact .inl rfl
    · exact .inr (isDigit_of_mem_digits h)

theorem isWord_integer (n : Int) : Token.IsWord (integer n).toList := by
  have hblank {c : Char} (h : c = '-' ∨ c.isDigit = true) : Text.isBlank c = false := by
    rw [← Bool.not_eq_true]
    intro hb
    simp only [Text.isBlank, Bool.or_eq_true, beq_iff_eq] at hb
    rcases hb with (((rfl | rfl) | rfl) | rfl) | rfl <;> revert h <;> decide
  refine ⟨?_, fun c hc => hblank (mem_integer hc)⟩
  rcases integer_toList n with ⟨htext, -⟩ | ⟨htext, -⟩ <;> rw [htext]
  · exact Nat.toDigits_ne_nil
  · exact List.cons_ne_nil _ _

end Decimal

/-! ## Literals -/

namespace Token

theorem magnitude?_digits (n : Nat) : magnitude? (Decimal.digits n) = some n := by
  have hplain : magnitude? (Decimal.digits n) = Reading.natural? 10 (Decimal.digits n) := by
    have hx {c : Char} (h : c ∈ Decimal.digits n) : c ≠ 'x' ∧ c ≠ 'X' := by
      have hc := Decimal.isDigit_of_mem_digits h
      constructor <;> (rintro rfl; revert hc; decide)
    unfold magnitude?
    split
    · rename_i s hs
      exact absurd rfl (hx (by rw [hs]; simp)).1
    · rename_i s hs
      exact absurd rfl (hx (by rw [hs]; simp)).2
    · rfl
  rw [hplain, Reading.natural?_digits]

theorem integer?_integer (n : Int) : integer? (Decimal.integer n).toList = some n := by
  rcases Decimal.integer_toList n with ⟨htext, hn⟩ | ⟨htext, hn⟩
  · have hplain : integer? (Decimal.digits n.natAbs) = (magnitude? (Decimal.digits n.natAbs)).map Int.ofNat := by
      unfold integer?
      split
      · rename_i s hs
        have hminus := Decimal.isDigit_of_mem_digits (n := n.natAbs) (c := '-') (by rw [hs]; simp)
        exact absurd hminus (by decide)
      · cases magnitude? (Decimal.digits n.natAbs) <;> rfl
    rw [htext, hplain, magnitude?_digits]
    exact congrArg some (Int.natAbs_of_nonneg hn)
  · rw [htext, integer?, magnitude?_digits]
    change some (-(n.natAbs : Int)) = some n
    rw [Int.ofNat_natAbs_of_nonpos (by omega), Int.neg_neg]

theorem isNumeric_integer (n : Int) : isNumeric (Decimal.integer n).toList = true := by
  obtain ⟨c, s, hd⟩ : ∃ c s, Decimal.digits n.natAbs = c :: s := List.exists_cons_of_ne_nil Nat.toDigits_ne_nil
  have hc : c.isDigit = true := Decimal.isDigit_of_mem_digits (n := n.natAbs) (by rw [hd]; simp)
  rcases Decimal.integer_toList n with ⟨htext, -⟩ | ⟨htext, -⟩
  · rw [htext, hd]
    unfold isNumeric
    split
    · rename_i h
      cases h
      exact absurd hc (by decide)
    · rename_i h
      cases h
      exact hc
    · rename_i h
      cases h
  · rw [htext, hd]
    exact hc

/-- the text of an integer stands for it -/
theorem literal_integer_text (n : Int64) : literal (Decimal.integer n.toInt).toList = .number (.integer n) := by
  have hpoint : (Decimal.integer n.toInt).toList.contains '.' = false := by
    rw [← Bool.not_eq_true, List.contains_iff_mem]
    intro h
    rcases Decimal.mem_integer h with h | h <;> revert h <;> decide
  have hfits : Fraction.fits n.toInt = true := by
    have hlow := n.le_toInt
    have hhigh := n.toInt_lt
    simp only [Fraction.fits, decide_eq_true_eq]
    omega
  rw [literal_integer ⟨isNumeric_integer _, hpoint, integer?_integer _, hfits⟩, Int64.ofInt_toInt]

end Token

end ReversePolish
