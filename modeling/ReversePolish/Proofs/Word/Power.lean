/-
Powers of integers within 64 bits.

The word `^` gives the 64-bit integer nearest to the power, but it tells exponents apart up to 2^32 - 1 only and takes
that odd number for all that are larger. From an exponent of 64 on the nearest integer depends on the base and on the
parity of the exponent alone (`saturated_pow_far`), and on the parity for negative bases only (`farPower_eq_iff`). So
the size of an exponent may be cut, but not its parity. Results:
- `toInt_clampedPower`: the shortened exponents of `clampedPower` keep the parity, and give the right integer;
- `powers_saturate_unless_cut`: `^` pushes the nearest integer, unless a negative base has an even exponent from 2^32
  on;
- `even_power_negative`: -1 to the power 2^32.
-/
import Mathlib.Algebra.Order.Ring.Int
import Mathlib.Algebra.Order.Ring.Basic
import ReversePolish.Proofs.Word.Spend

namespace ReversePolish

/-! ## The nearest 64-bit integer -/

/-- the 64-bit integer nearest to n -/
def saturated (n : Int) : Int := max (-0x8000000000000000) (min 0x7fffffffffffffff n)

theorem toInt_ofIntClamp (n : Int) : (Int64.ofIntClamp n).toInt = saturated n := by
  have hlow : Int64.minValue.toInt = -0x8000000000000000 := by decide
  have hhigh : Int64.maxValue.toInt = 0x7fffffffffffffff := by decide
  unfold Int64.ofIntClamp saturated
  split
  · split
    · rw [Int64.toInt_ofIntLE]
      omega
    · omega
  · omega

/-! ## Far powers -/

/-- the 64-bit integer nearest to a power with an exponent from 64 on, by the parity of the exponent -/
def farPower (a : Int) (odd : Bool) : Int :=
  if a.natAbs ≤ 1 then if odd then a else a.natAbs
  else if a < 0 ∧ odd = true then -0x8000000000000000
  else 0x7fffffffffffffff

/-- the parity counts for negative bases only -/
theorem farPower_eq_iff (a : Int) (odd odd' : Bool) : farPower a odd = farPower a odd' ↔ 0 ≤ a ∨ odd = odd' := by
  have hparity : farPower a true = farPower a false ↔ 0 ≤ a := by
    simp only [farPower, if_true, Bool.false_eq_true, and_true, and_false, if_false]
    split
    · omega
    · split <;> omega
  cases odd with
  | true =>
    cases odd' with
    | true => simp
    | false => simpa using hparity
  | false =>
    cases odd' with
    | true => simpa [eq_comm] using hparity
    | false => simp

theorem farPower_of_neg {a : Int} (ha : a < 0) (odd : Bool) :
    farPower a odd = if odd then if a = -1 then -1 else -0x8000000000000000
      else if a = -1 then 1 else 0x7fffffffffffffff := by
  have hunit : a.natAbs ≤ 1 ↔ a = -1 := by omega
  unfold farPower
  rw [if_congr hunit rfl rfl]
  by_cases hone : a = -1
  · subst hone
    cases odd <;> rfl
  · cases odd <;> simp [hone, ha]

/-- a power of an integer other than -1, 0 and 1 soon leaves the range -/
theorem natAbs_pow_far {a : Int} (ha : ¬ a.natAbs ≤ 1) {e : Nat} (he : 64 ≤ e) :
    0x10000000000000000 ≤ (a ^ e).natAbs := by
  rw [Int.natAbs_pow]
  calc 0x10000000000000000 = 2 ^ 64 := by decide
    _ ≤ a.natAbs ^ 64 := Nat.pow_le_pow_left (by omega) 64
    _ ≤ a.natAbs ^ e := Nat.pow_le_pow_right (by omega) he

theorem saturated_pow_far (a : Int) {e : Nat} (he : 64 ≤ e) : saturated (a ^ e) = farPower a (e % 2 == 1) := by
  have hparity : e % 2 = 0 ∨ e % 2 = 1 := Nat.mod_two_eq_zero_or_one e
  unfold farPower
  by_cases ha : a.natAbs ≤ 1
  · rw [if_pos ha]
    -- -1, 0 and 1: all powers of one parity are the same
    have hunit : a = -1 ∨ a = 0 ∨ a = 1 := by omega
    rcases hunit with rfl | rfl | rfl
    · rcases hparity with heven | hodd
      · rw [Even.neg_one_pow (Nat.even_iff.2 heven), heven]
        rfl
      · rw [Odd.neg_one_pow (Nat.odd_iff.2 hodd), hodd]
        rfl
    · rw [zero_pow (by omega), Int.natAbs_zero, Int.natCast_zero, ite_self]
      rfl
    · rw [one_pow, Int.natAbs_one, Int.natCast_one, ite_self]
      rfl
  · rw [if_neg ha]
    have hfar := natAbs_pow_far ha he
    unfold saturated
    by_cases hneg : a < 0
    · rcases hparity with heven | hodd
      · have hpos : 0 ≤ a ^ e := Even.pow_nonneg (Nat.even_iff.2 heven) a
        rw [heven, if_neg (by simp)]
        omega
      · have hneg' : a ^ e < 0 := Odd.pow_neg (Nat.odd_iff.2 hodd) hneg
        rw [hodd, if_pos ⟨hneg, rfl⟩]
        omega
    · have hpos : 0 ≤ a ^ e := pow_nonneg (by omega) e
      rw [if_neg (by tauto)]
      omega

/-! ## Powers of 64-bit integers -/

/-- the nearest integer to every power -/
theorem toInt_clampedPower (a : Int64) (e : Nat) : (clampedPower a e).toInt = saturated (a.toInt ^ e) := by
  unfold clampedPower
  rw [toInt_ofIntClamp]
  change saturated (a.toInt ^ (if e ≤ 64 then e else 64 + e % 2)) = _
  split
  · rfl
  · rename_i hfar
    have hparity : (64 + e % 2) % 2 = e % 2 := by omega
    rw [saturated_pow_far _ (by omega), saturated_pow_far _ (by omega), hparity]

/-- exponents that are cut give the right integer if the base is not negative or they are odd -/
theorem saturated_pow_cut_iff (a : Int) (e : Nat) :
    saturated (a ^ min e maxExponent) = saturated (a ^ e) ↔ 0 ≤ a ∨ e ≤ maxExponent ∨ e % 2 = 1 := by
  by_cases hcut : e ≤ maxExponent
  · rw [Nat.min_eq_left hcut]
    exact ⟨fun _ => .inr (.inl hcut), fun _ => rfl⟩
  · rw [Nat.min_eq_right (by omega), saturated_pow_far a (by decide : 64 ≤ maxExponent),
      saturated_pow_far a (by unfold maxExponent at hcut; omega), farPower_eq_iff]
    have hodd : (maxExponent % 2 == 1) = true := by decide
    rw [hodd, eq_comm (a := true), beq_iff_eq]
    exact or_congr_right ⟨.inr, fun h => h.resolve_left hcut⟩

/-! ## The word -/

/-- with two integers on top, `^` is the power of integers -/
theorem power_native (a b : Int64) (below : List Value) (limit : Option Nat) :
    ∃ validator, (Dictionary.nativesOf natives "^").find?
        (·.validator.accepts ⟨.integer b :: .integer a :: below, limit⟩) =
      some ⟨validator, .operator (.math (.binary .pow)), .none⟩ := ⟨_, rfl⟩

/-- the operands are gone before the power is pushed -/
theorem power_run {a b : Int64} (hb : 0 ≤ b) {below : List Value} {limit : Option Nat}
    (hroom : Stack.Fits ⟨below, limit⟩ 1) :
    (Operator.math (.binary .pow)).run ⟨.integer b :: .integer a :: below, limit⟩ =
      .ok () ⟨.integer (clampedPower a (min b.toInt.toNat maxExponent)) :: below, limit⟩ := by
  have hpower : integerPower a b = .integer (clampedPower a (min b.toInt.toNat maxExponent)) :=
    if_neg (Int64.not_lt.2 hb)
  rw [← hpower]
  exact Effect.push_fits hroom (integerPower a b)

theorem evalOne_power {a b : Int64} (hb : 0 ≤ b) {m : Machine} (hidle : m.isCompiling = false)
    (hnative : Dictionary.nativesOf natives "^" <+: m.dictionary.definitions "^") {below : List Value}
    {limit : Option Nat} (hstack : m.stack = ⟨.integer b :: .integer a :: below, limit⟩)
    (hroom : Stack.Fits ⟨below, limit⟩ 1) (rest : String) :
    ∃ m', m.evalOne "^" rest = (.ok () m', rest) ∧
      m'.stack = ⟨.integer (clampedPower a (min b.toInt.toNat maxExponent)) :: below, limit⟩ := by
  obtain ⟨validator, hfind⟩ := power_native a b below limit
  have hname := isName_of_mem_nativesOf (List.mem_of_find?_eq_some hfind)
  have hlookup := Dictionary.lookup_of_native hnative hfind
  have hrun := power_run (a := a) hb hroom
  rw [← hstack] at hlookup hrun
  exact evalOne_operator_ok hname hidle hlookup rest hrun

/-- **Powers of integers saturate, unless the exponent is cut.** Outside a compilation let integers a and b with b at
least zero be on top of the data stack, with room for the result below the limit. `^` puts an integer r in their place.
It is the 64-bit integer nearest to the exact power exactly if a is not negative, b is below 2^32, or b is odd. In the
other cases the power is positive, and r is the integer nearest to a negative one: -1 for a = -1, and else the lowest
64-bit integer. -/
theorem powers_saturate_unless_cut {a b : Int64} (hb : 0 ≤ b) {m : Machine} (hidle : m.isCompiling = false)
    (hnative : Dictionary.nativesOf natives "^" <+: m.dictionary.definitions "^") {below : List Value}
    {limit : Option Nat} (hstack : m.stack = ⟨.integer b :: .integer a :: below, limit⟩)
    (hroom : Stack.Fits ⟨below, limit⟩ 1) (rest : String) :
    ∃ r m', m.evalOne "^" rest = (.ok () m', rest) ∧ m'.stack = ⟨.integer r :: below, limit⟩ ∧
      (r.toInt = saturated (a.toInt ^ b.toInt.toNat) ↔
        0 ≤ a.toInt ∨ b.toInt < 0x100000000 ∨ b.toInt % 2 = 1) ∧
      (a.toInt < 0 → 0x100000000 ≤ b.toInt → b.toInt % 2 = 0 →
        r = (if a = -1 then -1 else Int64.minValue) ∧
          saturated (a.toInt ^ b.toInt.toNat) = if a = -1 then 1 else 0x7fffffffffffffff) := by
  obtain ⟨m', heval, hstack'⟩ := evalOne_power hb hidle hnative hstack hroom rest
  have hcount : (b.toInt.toNat : Int) = b.toInt := Int.toNat_of_nonneg (Int64.le_iff_toInt_le.1 hb)
  refine ⟨_, m', heval, hstack', ?_, fun ha hlarge heven => ?_⟩
  · rw [toInt_clampedPower, saturated_pow_cut_iff]
    unfold maxExponent
    omega
  · have hcut : min b.toInt.toNat maxExponent = maxExponent := Nat.min_eq_right (by unfold maxExponent; omega)
    have hunit : a.toInt = -1 ↔ a = -1 := by
      rw [← Int64.toInt_inj]
      rfl
    have hodd : (maxExponent % 2 == 1) = true := by decide
    have hpower := toInt_clampedPower a maxExponent
    rw [saturated_pow_far _ (by decide), hodd, farPower_of_neg ha, if_pos rfl, if_congr hunit rfl rfl] at hpower
    have hparity : (b.toInt.toNat % 2 == 1) = false := by
      rw [beq_eq_false_iff_ne]
      omega
    rw [hcut, saturated_pow_far _ (by omega), hparity, farPower_of_neg ha, if_neg Bool.false_ne_true,
      if_congr hunit rfl rfl]
    refine ⟨Int64.toInt_inj.1 (hpower.trans ?_), rfl⟩
    split <;> rfl

/-- -2 to the power 2^63 - 1, the largest exponent there is, which is odd -/
theorem powers_saturate_unless_cut_odd :
    ∃ m m' : Machine, (0 : Int64) ≤ 9223372036854775807 ∧ m.isCompiling = false ∧
      Dictionary.nativesOf natives "^" <+: m.dictionary.definitions "^" ∧
      m.stack = ⟨[.integer 9223372036854775807, .integer (-2), .string "a"], some 2⟩ ∧
      Stack.Fits ⟨[.string "a"], some 2⟩ 1 ∧ m.evalOne "^" "" = (.ok () m', "") ∧
      m'.stack = ⟨[.integer Int64.minValue, .string "a"], some 2⟩ ∧
      Int64.minValue.toInt = saturated ((-2) ^ 9223372036854775807) := by
  obtain ⟨dictionary, status, log, -, hholds⟩ := start_ok (s := {}) rfl
  have hnative := hholds.built.natives_first "^"
  have hroom : Stack.Fits ⟨[.string "a"], some 2⟩ 1 := by
    rintro l ⟨⟩
    decide
  obtain ⟨r, m', heval, hstack, hexact, -⟩ := powers_saturate_unless_cut (a := -2) (b := 9223372036854775807)
    (by decide) (m := { dictionary, stack := ⟨[.integer 9223372036854775807, .integer (-2), .string "a"], some 2⟩ })
    rfl hnative rfl hroom ""
  have hbase : (-2 : Int64).toInt = -2 := by decide
  have hexponent : (9223372036854775807 : Int64).toInt.toNat = 9223372036854775807 := by decide
  rw [hbase, hexponent] at hexact
  have hpower : r.toInt = saturated ((-2) ^ 9223372036854775807) := hexact.2 (.inr (.inr (by decide)))
  have hlowest : saturated ((-2) ^ 9223372036854775807) = Int64.minValue.toInt := by
    rw [saturated_pow_far (-2) (by decide)]
    decide
  obtain rfl : r = Int64.minValue := Int64.toInt_inj.1 (hpower.trans hlowest)
  exact ⟨_, m', by decide, rfl, hnative, rfl, hroom, heval, hstack, hpower⟩

/-- -1 to the power 2^32 is 1, but `^` gives -1: the exponent is cut to 2^32 - 1, which is odd -/
theorem even_power_negative :
    ((-1) ^ 0x100000000 : Int) = 1 ∧ saturated ((-1) ^ 0x100000000) = 1 ∧
    ∃ m m' : Machine, m.isCompiling = false ∧ Dictionary.nativesOf natives "^" <+: m.dictionary.definitions "^" ∧
      m.stack = ⟨[.integer 0x100000000, .integer (-1)], none⟩ ∧
      m.evalOne "^" "" = (.ok () m', "") ∧ m'.stack = ⟨[.integer (-1)], none⟩ := by
  obtain ⟨dictionary, status, log, -, hholds⟩ := start_ok (s := {}) rfl
  have hnative := hholds.built.natives_first "^"
  have hroom : Stack.Fits ⟨[], none⟩ 1 := by
    rintro l ⟨⟩
  have hone : ((-1) ^ 0x100000000 : Int) = 1 := Even.neg_one_pow (by decide)
  obtain ⟨m', heval, hstack⟩ := evalOne_power (a := -1) (b := 0x100000000) (by decide)
    (m := { dictionary, stack := ⟨[.integer 0x100000000, .integer (-1)], none⟩ }) rfl hnative rfl hroom ""
  exact ⟨hone, by rw [hone]; rfl, _, m', rfl, hnative, rfl, heval, hstack⟩

end ReversePolish
