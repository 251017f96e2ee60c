/-
Integer literals are read exactly.

A word without a point is an integer of 64 bits exactly if it has the form of one: an optional `-`, and decimal digits
or hexadecimal digits after `0x` or `0X`, that denote a number in range (`IntegerText`). The reader takes numbers of
any size. It is run once more as a machine would (`literalWithin`): the digits are read into 128 bits by a routine that
stops on overflow and takes a sign of its own, and the result is then narrowed to 64 bits. Results:
- `extend?_eq_some_iff`, `natural?_eq_some_iff`: runs of digits read as what they denote;
- `integer?_eq_some_iff`: an integer of any size is read exactly if the word has the form of one;
- `extendWithin?_eq`, `literalWithin_eq`: 128 bits are enough, and no sign but the leading one is let through;
- `integer_literals_exact` puts these together.
-/
import Mathlib.Data.Nat.Digits.Defs
import Mathlib.Tactic.IntervalCases
import ReversePolish.Proofs.Fraction.Arithmetic
import ReversePolish.Proofs.Number.Decimal

namespace ReversePolish

/-! ## Digits -/

namespace Reading

/-- `c` is the digit of value `d` in the given base, a letter in either case -/
def DigitOf (base : Nat) (c : Char) (d : Nat) : Prop :=
  d < base ∧ ("0123456789abcdef".toList[d]? = some c ∨ "0123456789ABCDEF".toList[d]? = some c)

/-- the text is one or more digits, the highest first, that denote `n` -/
def Denotes (base : Nat) (s : List Char) (n : Nat) : Prop :=
  s ≠ [] ∧ ∃ ds, List.Forall₂ (DigitOf base) s ds ∧ n = Nat.ofDigits base ds.reverse

instance (base : Nat) (c : Char) (d : Nat) : Decidable (DigitOf base c d) := inferInstanceAs (Decidable (_ ∧ _))

theorem char_between {low high : Char} {P : Char → Prop}
    (h : ∀ k < high.toNat + 1 - low.toNat, P (Char.ofNat (low.toNat + k))) {c : Char} (hc : low ≤ c ∧ c ≤ high) :
    P c := by
  have hlow : low.toNat ≤ c.toNat := hc.1
  have hhigh : c.toNat ≤ high.toNat := hc.2
  have hat := h (c.toNat - low.toNat) (by omega)
  rwa [Nat.add_sub_cancel' hlow, Char.ofNat_toNat] at hat

theorem digitValue?_eq_some_iff {c : Char} {d : Nat} : digitValue? c = some d ↔ DigitOf 16 c d := by
  constructor
  · intro h
    unfold digitValue? at h
    split at h
    · rename_i hrange
      rw [← Option.some.inj h]
      exact char_between (P := fun c => DigitOf 16 c (c.toNat - '0'.toNat)) (by decide) hrange
    · split at h
      · rename_i hrange
        rw [← Option.some.inj h]
        exact char_between (P := fun c => DigitOf 16 c (c.toNat - 'a'.toNat + 10)) (by decide) hrange
      · split at h
        · rename_i hrange
          rw [← Option.some.inj h]
          exact char_between (P := fun c => DigitOf 16 c (c.toNat - 'A'.toNat + 10)) (by decide) hrange
        · cases h
  · rintro ⟨hlt, h | h⟩ <;> interval_cases d <;> cases h <;> decide

theorem digitIn?_eq_some_iff {base : Nat} (hbase : base ≤ 16) {c : Char} {d : Nat} :
    digitIn? base c = some d ↔ DigitOf base c d := by
  unfold digitIn?
  rw [Option.filter_eq_some_iff, digitValue?_eq_some_iff, decide_eq_true_iff]
  constructor
  · rintro ⟨⟨-, hdigit⟩, hlt⟩
    exact ⟨hlt, hdigit⟩
  · rintro ⟨hlt, hdigit⟩
    exact ⟨⟨Nat.lt_of_lt_of_le hlt hbase, hdigit⟩, hlt⟩

/-- two digits at the top in one -/
theorem ofDigits_join (base : Nat) (ds : List Nat) (d acc : Nat) :
    Nat.ofDigits base (ds ++ [acc * base + d]) = Nat.ofDigits base (ds ++ [d] ++ [acc]) := by
  rw [List.append_assoc, Nat.ofDigits_append, Nat.ofDigits_append]
  congr 2
  calc Nat.ofDigits base [acc * base + d]
      _ = acc * base + d := Nat.ofDigits_singleton
      _ = d + base * acc := by rw [Nat.mul_comm, Nat.add_comm]
      _ = Nat.ofDigits base ([d] ++ [acc]) := by simp [Nat.ofDigits_cons]

/-- the number that the digits are appended to stands as one more digit above them -/
theorem extend?_eq_some_iff {base : Nat} (hbase : base ≤ 16) {s : List Char} {acc n : Nat} :
    extend? base acc s = some n ↔
      ∃ ds, List.Forall₂ (DigitOf base) s ds ∧ n = Nat.ofDigits base (ds.reverse ++ [acc]) := by
  induction s generalizing acc with
  | nil =>
    constructor
    · intro h
      exact ⟨[], .nil, by simpa [extend?] using h.symm⟩
    · rintro ⟨ds, hds, rfl⟩
      cases hds
      simp [extend?]
  | cons c s ih =>
    constructor
    · intro h
      unfold extend? at h
      split at h
      · rename_i d hd
        obtain ⟨ds, hds, rfl⟩ := ih.1 h
        refine ⟨d :: ds, .cons ((digitIn?_eq_some_iff hbase).1 hd) hds, ?_⟩
        rw [List.reverse_cons, ofDigits_join]
      · cases h
    · rintro ⟨ds, hds, rfl⟩
      cases hds with
      | @cons _ d _ ds hd hds =>
        rw [extend?, (digitIn?_eq_some_iff hbase).2 hd]
        refine ih.2 ⟨ds, hds, ?_⟩
        rw [List.reverse_cons, ofDigits_join]

theorem natural?_eq_some_iff {base : Nat} (hbase : base ≤ 16) {s : List Char} {n : Nat} :
    natural? base s = some n ↔ Denotes base s n := by
  cases s with
  | nil => exact ⟨fun h => (by cases h), fun h => absurd rfl h.1⟩
  | cons c s =>
    have htop (ds : List Nat) : Nat.ofDigits base (ds.reverse ++ [0]) = Nat.ofDigits base ds.reverse := by
      simp [Nat.ofDigits_append]
    change extend? base 0 (c :: s) = some n ↔ _
    rw [extend?_eq_some_iff hbase]
    simp only [htop]
    exact ⟨fun h => ⟨List.cons_ne_nil c s, h⟩, fun h => h.2⟩

theorem Denotes.digit {base : Nat} {s : List Char} {n : Nat} (h : Denotes base s n) {c : Char} (hc : c ∈ s) :
    ∃ d, DigitOf base c d := by
  obtain ⟨-, ds, hds, -⟩ := h
  clear n
  induction hds with
  | nil => cases hc
  | cons hd _ ih =>
    rcases List.mem_cons.1 hc with rfl | hc
    · exact ⟨_, hd⟩
    · exact ih hc

theorem not_digitOf {base : Nat} (hbase : base ≤ 16) {c : Char} (h : digitIn? base c = none) (d : Nat) :
    ¬ DigitOf base c d := by
  intro hd
  rw [(digitIn?_eq_some_iff hbase).2 hd] at h
  cases h

end Reading

/-! ## The form of integers -/

namespace Token

open Reading (Denotes)

/-- decimal digits, or hexadecimal ones after `0x` or `0X` -/
inductive Magnitude : List Char → Nat → Prop
  | decimal {s : List Char} {n : Nat} : Denotes 10 s n → Magnitude s n
  | hexadecimal {x : Char} {s : List Char} {n : Nat} : x = 'x' ∨ x = 'X' → Denotes 16 s n → Magnitude ('0' :: x :: s) n

/-- the word has the form of an integer, that of the given value -/
inductive IntegerText : List Char → Int → Prop
  | plain {s : List Char} {n : Nat} : Magnitude s n → IntegerText s n
  | negative {s : List Char} {n : Nat} : Magnitude s n → IntegerText ('-' :: s) (-n)

/-- the word starts with a digit, or with `-` and a digit -/
def StartsNumber (w : List Char) : Prop := ∃ c s, c.isDigit = true ∧ (w = c :: s ∨ w = '-' :: c :: s)

theorem isNumeric_iff {w : List Char} : isNumeric w = true ↔ StartsNumber w := by
  constructor
  · intro h
    unfold isNumeric at h
    split at h
    · exact ⟨_, _, h, .inr rfl⟩
    · exact ⟨_, _, h, .inl rfl⟩
    · cases h
  · rintro ⟨c, s, hc, rfl | rfl⟩
    · unfold isNumeric
      split
      · rename_i hw
        cases hw
        exact absurd hc (by decide)
      · rename_i hw
        cases hw
        exact hc
      · rename_i hw
        cases hw
    · exact hc

theorem isDigit_of_digitOf {c : Char} {d : Nat} (h : Reading.DigitOf 10 c d) : c.isDigit = true := by
  obtain ⟨hlt, h | h⟩ := h <;> interval_cases d <;> cases h <;> decide

theorem Magnitude.startsDigit {s : List Char} {n : Nat} (h : Magnitude s n) : ∃ c r, c.isDigit = true ∧ s = c :: r := by
  cases h with
  | decimal h =>
    obtain ⟨c, r, rfl⟩ := List.exists_cons_of_ne_nil h.1
    obtain ⟨d, hd⟩ := h.digit List.mem_cons_self
    exact ⟨c, r, isDigit_of_digitOf hd, rfl⟩
  | hexadecimal => exact ⟨'0', _, rfl, rfl⟩

theorem IntegerText.startsNumber {w : List Char} {n : Int} (h : IntegerText w n) : StartsNumber w := by
  cases h with
  | plain h =>
    obtain ⟨c, r, hc, rfl⟩ := h.startsDigit
    exact ⟨c, r, hc, .inl rfl⟩
  | negative h =>
    obtain ⟨c, r, hc, rfl⟩ := h.startsDigit
    exact ⟨c, r, hc, .inr rfl⟩

/-- a text of decimal digits has no `x` in it, so it is not taken for a hexadecimal one -/
theorem magnitude?_decimal {s : List Char} {n : Nat} (h : Denotes 10 s n) : magnitude? s = Reading.natural? 10 s := by
  unfold magnitude?
  split
  · obtain ⟨d, hd⟩ := h.digit (c := 'x') (by simp)
    exact absurd hd (Reading.not_digitOf (by decide) (by decide) d)
  · obtain ⟨d, hd⟩ := h.digit (c := 'X') (by simp)
    exact absurd hd (Reading.not_digitOf (by decide) (by decide) d)
  · rfl

theorem magnitude?_eq_some_iff {s : List Char} {n : Nat} : magnitude? s = some n ↔ Magnitude s n := by
  constructor
  · intro h
    unfold magnitude? at h
    split at h
    · exact .hexadecimal (.inl rfl) ((Reading.natural?_eq_some_iff (by decide)).1 h)
    · exact .hexadecimal (.inr rfl) ((Reading.natural?_eq_some_iff (by decide)).1 h)
    · exact .decimal ((Reading.natural?_eq_some_iff (by decide)).1 h)
  · intro h
    cases h with
    | decimal h => rw [magnitude?_decimal h, (Reading.natural?_eq_some_iff (by decide)).2 h]
    | hexadecimal hx h =>
      rcases hx with rfl | rfl <;> exact (Reading.natural?_eq_some_iff (by decide)).2 h

theorem integer?_negative (s : List Char) :
    integer? ('-' :: s) = Option.map (fun n : Nat => -(n : Int)) (magnitude? s) := by
  rw [integer?]
  cases magnitude? s <;> rfl

theorem integer?_unsigned {w : List Char} (hw : ∀ s, w ≠ '-' :: s) :
    integer? w = Option.map (fun n : Nat => (n : Int)) (magnitude? w) := by
  unfold integer?
  split
  · exact absurd rfl (hw _)
  · cases magnitude? w <;> rfl

theorem cons_ne_of_isDigit {c x : Char} (hc : c.isDigit = true) (hx : x.isDigit = false) (s r : List Char) :
    c :: s ≠ x :: r := by
  intro h
  rw [(List.cons.inj h).1, hx] at hc
  cases hc

theorem integer?_eq_some_iff {w : List Char} {n : Int} : integer? w = some n ↔ IntegerText w n := by
  constructor
  · intro h
    by_cases hw : ∃ s, w = '-' :: s
    · obtain ⟨s, rfl⟩ := hw
      rw [integer?_negative] at h
      obtain ⟨k, hk, rfl⟩ := Option.map_eq_some_iff.1 h
      exact .negative (magnitude?_eq_some_iff.1 hk)
    · rw [integer?_unsigned fun s hs => hw ⟨s, hs⟩] at h
      obtain ⟨k, hk, rfl⟩ := Option.map_eq_some_iff.1 h
      exact .plain (magnitude?_eq_some_iff.1 hk)
  · intro h
    cases h with
    | plain h =>
      obtain ⟨c, r, hc, rfl⟩ := h.startsDigit
      rw [integer?_unsigned (cons_ne_of_isDigit hc rfl r), magnitude?_eq_some_iff.2 h, Option.map_some]
    | negative h => rw [integer?_negative, magnitude?_eq_some_iff.2 h, Option.map_some]

/-! ## Narrowing -/

/-- an integer that was read, as a literal of 64 bits -/
def narrow : Option Int → Literal
  | some n => if Fraction.fits n then .number (.integer (Int64.ofInt n)) else .malformed
  | none => .malformed

theorem literal_eq_narrow {w : List Char} (hnumber : StartsNumber w) (hpoint : '.' ∉ w) :
    literal w = narrow (integer? w) := by
  have hcontains : w.contains '.' = false := by simpa using hpoint
  simp only [literal, isNumeric_iff.2 hnumber, hcontains, Bool.not_true, Bool.false_eq_true, if_false]
  cases integer? w <;> rfl

theorem narrow_eq_number_iff {r : Option Int} {v : Value} :
    narrow r = .number v ↔ ∃ n : Int64, v = .integer n ∧ r = some n.toInt := by
  constructor
  · intro h
    unfold narrow at h
    split at h
    · rename_i k
      split at h
      · rename_i hfits
        cases h
        exact ⟨Int64.ofInt k, rfl, by rw [Fraction.toInt_ofInt_of_fits hfits]⟩
      · cases h
    · cases h
  · rintro ⟨n, rfl, rfl⟩
    rw [narrow, if_pos (Fraction.fits_toInt n), Int64.ofInt_toInt]

theorem narrow_eq_malformed_iff {r : Option Int} : narrow r = .malformed ↔ ¬ ∃ n : Int64, r = some n.toInt := by
  constructor
  · rintro h ⟨n, hn⟩
    rw [narrow_eq_number_iff.2 ⟨n, rfl, hn⟩] at h
    cases h
  · intro h
    cases hr : narrow r with
    | name =>
      unfold narrow at hr
      split at hr
      · split at hr <;> cases hr
      · cases hr
    | number v =>
      obtain ⟨n, -, hn⟩ := narrow_eq_number_iff.1 hr
      exact absurd ⟨n, hn⟩ h
    | malformed => rfl

end Token

/-! ## Reading in 128 bits -/

namespace Reading

open Fraction (wide? wideLimit wide?_eq)

/-- appends digits to a number as `extend?` does, every step in 128 bits; a `unit` of -1 counts downwards -/
def extendWithin? (base : Nat) (unit : Int) : Int → List Char → Option Int
  | acc, [] => some acc
  | acc, c :: s => do
    let d ← digitIn? base c
    let shifted ← wide? (acc * base)
    let next ← wide? (shifted + unit * d)
    extendWithin? base unit next s

def naturalWithin? (base : Nat) (unit : Int) : List Char → Option Int
  | [] => none
  | s => extendWithin? base unit 0 s

/-- digits after an optional sign -/
def signedWithin? (base : Nat) : List Char → Option Int
  | '-' :: s => naturalWithin? base (-1) s
  | '+' :: s => naturalWithin? base 1 s
  | s => naturalWithin? base 1 s

theorem wide?_natCast {n : Nat} (h : n < wideLimit) : wide? n = some (n : Int) :=
  wide?_eq (by rwa [Int.natAbs_natCast])

theorem wide?_eq_none {n : Nat} (h : wideLimit ≤ n) : wide? n = none := by
  unfold wide?
  exact if_neg (by omega)

theorem le_of_extend? {base : Nat} (hbase : 0 < base) {s : List Char} {acc n : Nat} (h : extend? base acc s = some n) :
    acc ≤ n := by
  induction s generalizing acc with
  | nil => exact Nat.le_of_eq (Option.some.inj h)
  | cons c s ih =>
    unfold extend? at h
    split at h
    · rename_i d hd
      calc acc
          _ ≤ acc * base := Nat.le_mul_of_pos_right acc hbase
          _ ≤ acc * base + d := Nat.le_add_right _ d
          _ ≤ n := ih h
    · cases h

/-- a number that has left 128 bits once is outside at the end too, as appending digits makes no number smaller -/
theorem extendWithin?_eq {base : Nat} (hbase : 0 < base) {s : List Char} {acc : Nat} (hacc : acc < wideLimit) :
    extendWithin? base 1 acc s = (extend? base acc s).bind fun n => wide? n := by
  induction s generalizing acc with
  | nil => rw [extendWithin?, extend?, Option.bind_some, wide?_natCast hacc]
  | cons c s ih =>
    rw [extendWithin?, extend?]
    cases digitIn? base c with
    | none => rw [Option.bind_eq_bind, Option.bind_none, Option.bind_none]
    | some d =>
      have hshift : (acc : Int) * base = (acc * base : Nat) := (Int.natCast_mul acc base).symm
      have hnext : ((acc * base : Nat) : Int) + 1 * d = (acc * base + d : Nat) := by
        rw [Int.one_mul, Int.natCast_add]
      by_cases hlimit : acc * base + d < wideLimit
      · have hfirst : acc * base < wideLimit := Nat.lt_of_le_of_lt (Nat.le_add_right _ d) hlimit
        rw [Option.bind_eq_bind, Option.bind_some, hshift, wide?_natCast hfirst, Option.bind_eq_bind, Option.bind_some,
          hnext, wide?_natCast hlimit, Option.bind_some]
        exact ih hlimit
      · have hout : ((extend? base (acc * base + d) s).bind fun n => wide? n) = none := by
          rw [Option.bind_eq_none_iff]
          intro n hn
          exact wide?_eq_none (Nat.le_trans (Nat.not_lt.1 hlimit) (le_of_extend? hbase hn))
        rw [Option.bind_eq_bind, Option.bind_some, hshift]
        refine Eq.trans ?_ hout.symm
        by_cases hfirst : acc * base < wideLimit
        · rw [wide?_natCast hfirst, Option.bind_eq_bind, Option.bind_some, hnext,
            wide?_eq_none (Nat.not_lt.1 hlimit), Option.bind_none]
        · rw [wide?_eq_none (Nat.not_lt.1 hfirst), Option.bind_eq_bind, Option.bind_none]

theorem signedWithin?_eq {base : Nat} (hbase : 0 < base) {s : List Char} (hminus : ∀ r, s ≠ '-' :: r)
    (hplus : ∀ r, s ≠ '+' :: r) : signedWithin? base s = (natural? base s).bind fun n => wide? n := by
  unfold signedWithin?
  split
  · exact absurd rfl (hminus _)
  · exact absurd rfl (hplus _)
  · cases s with
    | nil => rfl
    | cons c s =>
      have hzero : 0 < wideLimit := by decide
      exact extendWithin?_eq hbase hzero

end Reading

namespace Token

open Fraction (wide? wideLimit wide?_eq)

/-- hexadecimal digits; a sign in front of them is refused before they are read -/
def hexadecimalWithin? : List Char → Option Int
  | '+' :: _ => none
  | '-' :: _ => none
  | s => Reading.signedWithin? 16 s

def magnitudeWithin? : List Char → Option Int
  | '0' :: 'x' :: s => hexadecimalWithin? s
  | '0' :: 'X' :: s => hexadecimalWithin? s
  | s => Reading.signedWithin? 10 s

def integerWithin? : List Char → Option Int
  | '-' :: s => (magnitudeWithin? s).bind fun n => wide? (-n)
  | s => magnitudeWithin? s

/-- the literal that a word without a point is, read into 128 bits and narrowed to 64 -/
def literalWithin (word : List Char) : Literal :=
  if isNumeric word then narrow (integerWithin? word) else .name

theorem hexadecimalWithin?_eq (s : List Char) :
    hexadecimalWithin? s = (Reading.natural? 16 s).bind fun n => wide? n := by
  unfold hexadecimalWithin?
  split
  · rfl
  · rfl
  · rename_i hplus hminus
    exact Reading.signedWithin?_eq (by decide) (fun r h => hminus r h) (fun r h => hplus r h)

theorem magnitudeWithin?_eq {s : List Char} (hminus : ∀ r, s ≠ '-' :: r) (hplus : ∀ r, s ≠ '+' :: r) :
    magnitudeWithin? s = (magnitude? s).bind fun n => wide? n := by
  unfold magnitudeWithin?
  split
  · exact hexadecimalWithin?_eq _
  · exact hexadecimalWithin?_eq _
  · rename_i hlower hupper
    rw [magnitude?.eq_3 s hlower hupper]
    exact Reading.signedWithin?_eq (by decide) hminus hplus

theorem narrow_eq_malformed_of_large {n : Int} (h : wideLimit ≤ n.natAbs) : narrow (some n) = .malformed := by
  refine if_neg fun hfits => ?_
  have hrange := (Fraction.fits_iff n).1 hfits
  unfold wideLimit at h
  omega

theorem literalWithin_eq {w : List Char} (hpoint : '.' ∉ w) : literalWithin w = literal w := by
  unfold literalWithin
  split
  · rename_i hnumeric
    rw [literal_eq_narrow (isNumeric_iff.1 hnumeric) hpoint]
    obtain ⟨c, s, hc, hw⟩ := isNumeric_iff.1 hnumeric
    have hunsigned := cons_ne_of_isDigit hc (x := '-') rfl s
    have hmagnitude := magnitudeWithin?_eq hunsigned (cons_ne_of_isDigit hc rfl s)
    rcases hw with rfl | rfl
    · have hwithin : integerWithin? (c :: s) = magnitudeWithin? (c :: s) := by
        unfold integerWithin?
        split
        · rename_i hw
          exact absurd hw (hunsigned _)
        · rfl
      rw [hwithin, hmagnitude, integer?_unsigned hunsigned]
      cases magnitude? (c :: s) with
      | none => rfl
      | some k =>
        by_cases hk : k < wideLimit
        · rw [Option.bind_some, Reading.wide?_natCast hk, Option.map_some]
        · rw [Option.bind_some, Reading.wide?_eq_none (Nat.not_lt.1 hk), Option.map_some,
            narrow_eq_malformed_of_large (by omega), narrow]
    · rw [integerWithin?, hmagnitude, integer?_negative]
      cases magnitude? (c :: s) with
      | none => rfl
      | some k =>
        by_cases hk : k < wideLimit
        · rw [Option.bind_some, Reading.wide?_natCast hk, Option.bind_some, wide?_eq (by omega), Option.map_some]
        · rw [Option.bind_some, Reading.wide?_eq_none (Nat.not_lt.1 hk), Option.bind_none, Option.map_some,
            narrow_eq_malformed_of_large (by omega), narrow]
  · rename_i hnumeric
    exact (literal_eq_name_iff.2 (Bool.eq_false_iff.2 hnumeric)).symm

/-! ## Words without a point -/

/-- A word without a point is a name exactly if it starts like no number, the integer of 64 bits whose form it has, and
otherwise malformed. It comes to the same if the digits are read into 128 bits. The decimal text of an integer stands
for it. -/
theorem integer_literals_exact :
    (∀ w : List Char, '.' ∉ w →
      (literal w = .name ↔ ¬ StartsNumber w) ∧
      (∀ v, literal w = .number v ↔ ∃ n : Int64, v = .integer n ∧ IntegerText w n.toInt) ∧
      (literal w = .malformed ↔ StartsNumber w ∧ ¬ ∃ n : Int64, IntegerText w n.toInt) ∧
      literalWithin w = literal w) ∧
    ∀ n : Int64, literal (Decimal.integer n.toInt).toList = .number (.integer n) := by
  refine ⟨fun w hpoint => ?_, literal_integer_text⟩
  have hname : literal w = .name ↔ ¬ StartsNumber w := by
    rw [literal_eq_name_iff, ← isNumeric_iff, Bool.not_eq_true]
  refine ⟨hname, fun v => ?_, ?_, literalWithin_eq hpoint⟩
  · by_cases hnumber : StartsNumber w
    · simp only [literal_eq_narrow hnumber hpoint, narrow_eq_number_iff, integer?_eq_some_iff]
    · rw [hname.2 hnumber]
      constructor
      · intro h
        cases h
      · rintro ⟨n, -, hn⟩
        exact absurd hn.startsNumber hnumber
  · by_cases hnumber : StartsNumber w
    · simp only [literal_eq_narrow hnumber hpoint, narrow_eq_malformed_iff, integer?_eq_some_iff, hnumber, true_and]
    · rw [hname.2 hnumber]
      constructor
      · intro h
        cases h
      · exact fun h => absurd h.1 hnumber

/-- the least integer in hexadecimal, and a sign where no sign may be -/
theorem integer_literals_exact_least :
    ('.' ∉ "-0x8000000000000000".toList ∧ '.' ∉ "0x-5".toList) ∧
      literal "-0x8000000000000000".toList = .number (.integer Int64.minValue) ∧
      literal "0x-5".toList = .malformed := by
  have hleast : '.' ∉ "-0x8000000000000000".toList := by decide
  have hsign : '.' ∉ "0x-5".toList := by decide
  have htext : IntegerText "-0x8000000000000000".toList Int64.minValue.toInt :=
    integer?_eq_some_iff.1 (by decide +kernel)
  refine ⟨⟨hleast, hsign⟩, ((integer_literals_exact.1 _ hleast).2.1 _).2 ⟨_, rfl, htext⟩, ?_⟩
  refine (integer_literals_exact.1 _ hsign).2.2.1.2 ⟨isNumeric_iff.1 (by decide), ?_⟩
  rintro ⟨n, hn⟩
  have hnone : integer? "0x-5".toList = none := by decide +kernel
  rw [integer?_eq_some_iff.2 hn] at hnone
  cases hnone

end Token

end ReversePolish
