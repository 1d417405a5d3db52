/-
The operations of `Int64` on words are those of 64-bit two's complement: carries and borrows are what the unsigned
comparison of the low words says, and a product is put together from the products of halves.
-/
import EvilHaxe.Numeric.Int64
import Mathlib.Tactic.Ring

namespace EvilHaxe.Numeric

/-! ## Words -/

namespace Int32

theorem toInt_zero : (0 : Int32).toInt = 0 := rfl

theorem toNat_zero : (0 : Int32).toNat = 0 := rfl

theorem toNat_one : (1 : Int32).toNat = 1 := rfl

theorem isNeg_eq (a : Int32) : isNeg a = decide (2 ^ 31 ≤ a.toNat) := by
  have h : (a.slt 0) = a.msb := BitVec.slt_zero_eq_msb
  rw [isNeg, h, BitVec.msb_eq_decide]

theorem isNeg_toInt (a : Int32) : isNeg a = decide (a.toInt < 0) := by
  have h := a.isLt
  rw [isNeg_eq, decide_eq_decide, BitVec.toInt_eq_toNat_cond]
  split <;> omega

/-- Words of one sign have their difference. -/
theorem toInt_sub_of_sign {a b : Int32} (h : isNeg a = isNeg b) : (a - b).toInt = a.toInt - b.toInt := by
  have ha := a.isLt
  have hb := b.isLt
  rw [isNeg_eq, isNeg_eq, decide_eq_decide] at h
  rw [BitVec.toInt_eq_toNat_cond, BitVec.toInt_eq_toNat_cond, BitVec.toInt_eq_toNat_cond, BitVec.toNat_sub]
  split <;> split <;> split <;> omega

/-- The difference that `ucompare` answers with is that of the unsigned words. -/
theorem toInt_ucompare (a b : Int32) :
    (ucompare a b).toInt < 0 ∧ a.toNat < b.toNat ∨ (ucompare a b).toInt = 0 ∧ a.toNat = b.toNat ∨
      0 < (ucompare a b).toInt ∧ b.toNat < a.toNat := by
  have ha := a.isLt
  have hb := b.isLt
  unfold ucompare
  rw [isNeg_eq, isNeg_eq, BitVec.toInt_eq_toNat_cond]
  split <;> split <;> simp at * <;> omega

theorem slt_ucompare (a b : Int32) : (ucompare a b).slt 0 = decide (a.toNat < b.toNat) := by
  have h := toInt_ucompare a b
  rw [BitVec.slt_eq_decide, toInt_zero, decide_eq_decide]
  omega

theorem ucompare_eq_zero (a b : Int32) : ucompare a b = 0 ↔ a = b := by
  have h := toInt_ucompare a b
  rw [← BitVec.toInt_inj, ← BitVec.toNat_inj, toInt_zero]
  omega

end Int32

namespace Int64

/-- The 64 bits. -/
def value (x : Int64) : BitVec 64 := x.high ++ x.low

theorem toNat_value (x : Int64) : x.value.toNat = x.high.toNat * 2 ^ 32 + x.low.toNat := by
  rw [value, BitVec.toNat_append, ← Nat.shiftLeft_add_eq_or_of_lt x.low.isLt, Nat.shiftLeft_eq]

theorem value_injective {x y : Int64} (h : x.value = y.value) : x = y := by
  have hn := congrArg BitVec.toNat h
  rw [toNat_value, toNat_value] at hn
  have h1 := x.low.isLt
  have h2 := y.low.isLt
  have hhigh : x.high = y.high := BitVec.eq_of_toNat_eq (by omega)
  have hlow : x.low = y.low := BitVec.eq_of_toNat_eq (by omega)
  cases x
  cases y
  simp_all

/-! ## Arithmetic -/

theorem value_add (a b : Int64) : (add a b).value = a.value + b.value := by
  have ha := a.low.isLt
  have hb := b.low.isLt
  apply BitVec.eq_of_toNat_eq
  rw [BitVec.toNat_add, toNat_value, toNat_value, toNat_value, add]
  simp only [make, Int32.slt_ucompare, BitVec.toNat_add, decide_eq_true_eq]
  split <;> simp only [BitVec.toNat_add, Int32.toNat_one] <;> omega

theorem value_sub (a b : Int64) : (sub a b).value = a.value - b.value := by
  have ha := a.low.isLt
  have hb := b.low.isLt
  have ha' := a.high.isLt
  have hb' := b.high.isLt
  apply BitVec.eq_of_toNat_eq
  rw [BitVec.toNat_sub, toNat_value, toNat_value, toNat_value, sub]
  simp only [make, Int32.slt_ucompare, BitVec.toNat_sub, decide_eq_true_eq]
  split <;> simp only [BitVec.toNat_sub, Int32.toNat_one] <;> omega

theorem value_neg (a : Int64) : (neg a).value = -a.value := by
  have ha := a.low.isLt
  have ha' := a.high.isLt
  apply BitVec.eq_of_toNat_eq
  rw [BitVec.toNat_neg, toNat_value, toNat_value, neg]
  simp only [make, ← BitVec.toNat_inj, BitVec.toNat_neg]
  split <;> simp only [BitVec.toNat_add, Int32.toNat_one, Int32.toNat_zero, BitVec.toNat_not] at * <;> omega

/-- A word is added to the low one, and the carry to the high one. -/
theorem toNat_carry (high low p : Int32) :
    (make (if (Int32.ucompare (low + p) p).slt 0 then high + 1 else high) (low + p)).value.toNat =
      ((make high low).value.toNat + p.toNat) % 2 ^ 64 := by
  have hl := low.isLt
  have hp := p.isLt
  have hh := high.isLt
  rw [toNat_value, toNat_value]
  simp only [make, Int32.slt_ucompare, BitVec.toNat_add, decide_eq_true_eq]
  split
  · simp only [BitVec.toNat_add, Int32.toNat_one]
    omega
  · omega

theorem toNat_high (high low x : Int32) :
    (make (high + x) low).value.toNat = ((make high low).value.toNat + x.toNat * 2 ^ 32) % 2 ^ 64 := by
  have hl := low.isLt
  rw [toNat_value, toNat_value]
  simp only [make, BitVec.toNat_add]
  omega

theorem mul_halves (a b : Nat) : a * b =
    a / 2 ^ 16 * (b / 2 ^ 16) * 2 ^ 32 + (a % 2 ^ 16 * (b / 2 ^ 16) + a / 2 ^ 16 * (b % 2 ^ 16)) * 2 ^ 16 +
      a % 2 ^ 16 * (b % 2 ^ 16) := by
  conv_lhs => rw [← Nat.div_add_mod a (2 ^ 16), ← Nat.div_add_mod b (2 ^ 16)]
  ring

theorem half_mul_le {x y : Nat} (hx : x < 2 ^ 16) (hy : y < 2 ^ 16) : x * y ≤ (2 ^ 16 - 1) * (2 ^ 16 - 1) :=
  Nat.mul_le_mul (by omega) (by omega)

theorem toNat_lowHalf (x : Int32) : (x &&& 0xFFFF).toNat = x.toNat % 2 ^ 16 := by
  rw [BitVec.toNat_and]
  exact Nat.and_two_pow_sub_one_eq_mod x.toNat 16

theorem toNat_highHalf (x : Int32) : (x >>> 16).toNat = x.toNat / 2 ^ 16 := by
  rw [BitVec.toNat_ushiftRight, Nat.shiftRight_eq_div_pow]

theorem toNat_shiftHalf (x : Int32) : (x <<< 16).toNat = x.toNat * 2 ^ 16 % 2 ^ 32 := by
  rw [BitVec.toNat_shiftLeft, Nat.shiftLeft_eq]

/-- A product of halves fits in a word. -/
theorem toNat_halfMul {x y : Int32} (hx : x.toNat < 2 ^ 16) (hy : y.toNat < 2 ^ 16) :
    (x * y).toNat = x.toNat * y.toNat ∧ x.toNat * y.toNat ≤ (2 ^ 16 - 1) * (2 ^ 16 - 1) := by
  have h := half_mul_le hx hy
  exact ⟨by rw [BitVec.toNat_mul, Nat.mod_eq_of_lt (by omega)], h⟩

theorem value_mul (a b : Int64) : (mul a b).value = a.value * b.value := by
  have ha := a.low.isLt
  have hb := b.low.isLt
  have hal := toNat_lowHalf a.low
  have hah := toNat_highHalf a.low
  have hbl := toNat_lowHalf b.low
  have hbh := toNat_highHalf b.low
  obtain ⟨h00, b00⟩ := toNat_halfMul (x := a.low &&& 0xFFFF) (y := b.low &&& 0xFFFF) (by omega) (by omega)
  obtain ⟨h10, b10⟩ := toNat_halfMul (x := a.low >>> 16) (y := b.low &&& 0xFFFF) (by omega) (by omega)
  obtain ⟨h01, b01⟩ := toNat_halfMul (x := a.low &&& 0xFFFF) (y := b.low >>> 16) (by omega) (by omega)
  obtain ⟨h11, b11⟩ := toNat_halfMul (x := a.low >>> 16) (y := b.low >>> 16) (by omega) (by omega)
  have hlow := mul_halves a.low.toNat b.low.toNat
  apply BitVec.eq_of_toNat_eq
  rw [mul]
  rw [toNat_high, toNat_carry, toNat_carry, BitVec.toNat_mul, toNat_value, toNat_value, toNat_value]
  simp only [make, BitVec.toNat_add, BitVec.toNat_mul a.low b.high, BitVec.toNat_mul a.high b.low, toNat_shiftHalf,
    toNat_highHalf, h00, h10, h01, h11, hal, hbl]
  have hwords : (a.high.toNat * 2 ^ 32 + a.low.toNat) * (b.high.toNat * 2 ^ 32 + b.low.toNat) =
      a.low.toNat * b.low.toNat + (a.low.toNat * b.high.toNat + a.high.toNat * b.low.toNat) * 2 ^ 32 +
        a.high.toNat * b.high.toNat * 2 ^ 64 := by
    ring
  rw [hwords, hlow]
  simp only [hal, hah, hbl, hbh] at b00 b10 b01 b11
  generalize a.low.toNat % 2 ^ 16 * (b.low.toNat % 2 ^ 16) = p00 at *
  generalize a.low.toNat / 2 ^ 16 * (b.low.toNat % 2 ^ 16) = p10 at *
  generalize a.low.toNat % 2 ^ 16 * (b.low.toNat / 2 ^ 16) = p01 at *
  generalize a.low.toNat / 2 ^ 16 * (b.low.toNat / 2 ^ 16) = p11 at *
  generalize a.low.toNat * b.high.toNat = x at *
  generalize a.high.toNat * b.low.toNat = y at *
  generalize a.high.toNat * b.high.toNat = z at *
  clear h00 h10 h01 h11 hal hah hbl hbh hlow hwords ha hb
  omega

/-! ## Shifts -/

theorem toNat_count (b : Int32) : (b &&& 63).toNat = b.toNat % 64 := by
  rw [BitVec.toNat_and]
  exact Nat.and_two_pow_sub_one_eq_mod b.toNat 6

theorem slt_count {c : Int32} (h : c.toNat < 64) : c.slt 32 = decide (c.toNat < 32) := by
  rw [BitVec.slt_eq_decide, decide_eq_decide, BitVec.toInt_eq_toNat_of_lt (by omega)]
  show (c.toNat : Int) < 32 ↔ _
  omega

theorem toNat_rest {c : Int32} (h : c.toNat < 32) : (32 - c).toNat = 32 - c.toNat := by
  rw [BitVec.toNat_sub]
  show (2 ^ 32 - c.toNat + 32) % 2 ^ 32 = _
  omega

theorem toNat_excess {c : Int32} (h : 32 ≤ c.toNat) : (c - 32).toNat = c.toNat - 32 := by
  have hc := c.isLt
  rw [BitVec.toNat_sub]
  show (2 ^ 32 - 32 + c.toNat) % 2 ^ 32 = _
  omega

/-- The three cases of a shift count. -/
theorem count_cases (b : Int32) : b &&& 63 = 0 ∨ 0 < (b &&& 63).toNat ∧ (b &&& 63).toNat < 32 ∨
    32 ≤ (b &&& 63).toNat ∧ (b &&& 63).toNat < 64 := by
  have hlt : (b &&& 63).toNat < 64 := by
    rw [toNat_count]
    omega
  by_cases h0 : (b &&& 63).toNat = 0
  · exact .inl (BitVec.eq_of_toNat_eq h0)
  · omega

theorem count_ne_zero {c : Int32} (h : 0 < c.toNat) : c ≠ 0 := by
  rintro rfl
  exact absurd h (by decide)

theorem getLsbD_value (x : Int64) (i : Nat) :
    x.value.getLsbD i = if i < 32 then x.low.getLsbD i else x.high.getLsbD (i - 32) :=
  BitVec.getLsbD_append

theorem value_shl (a : Int64) (b : Int32) : (shl a b).value = a.value <<< (b.toNat % 64) := by
  rw [← toNat_count, shl]
  have hcount := count_cases b
  generalize b &&& 63 = c at hcount ⊢
  rcases hcount with rfl | ⟨h1, h2⟩ | ⟨h1, h2⟩
  · simp [copy, make, value]
  · rw [if_neg (count_ne_zero h1), slt_count (by omega), if_pos (decide_eq_true h2)]
    apply BitVec.eq_of_getLsbD_eq
    intro i hi
    simp only [getLsbD_value, make, BitVec.getLsbD_shiftLeft, BitVec.getLsbD_ushiftRight, BitVec.getLsbD_or,
      BitVec.shiftLeft_eq', BitVec.ushiftRight_eq', toNat_rest h2]
    by_cases h32 : i < 32
    · have h3 : i - c.toNat < 32 := by omega
      simp [h32, hi, h3]
    · have hi' : i - 32 < 32 := by omega
      have hc : ¬ i < c.toNat := by omega
      by_cases h3 : i - c.toNat < 32
      · have h4 : i - 32 < c.toNat := by omega
        have h5 : 32 - c.toNat + (i - 32) = i - c.toNat := by omega
        simp [h32, hi, hc, h3, h4, h5]
      · have h4 : ¬ i - 32 < c.toNat := by omega
        have h5 : 32 ≤ 32 - c.toNat + (i - 32) := by omega
        have h6 : i - 32 - c.toNat = i - c.toNat - 32 := by omega
        simp [h32, hi, hi', hc, h3, h4, h6, BitVec.getLsbD_of_ge _ _ h5]
  · rw [if_neg (count_ne_zero (by omega)), slt_count h2, if_neg (by simpa using h1)]
    apply BitVec.eq_of_getLsbD_eq
    intro i hi
    simp only [getLsbD_value, make, BitVec.getLsbD_shiftLeft, BitVec.shiftLeft_eq', toNat_excess h1]
    by_cases h32 : i < 32
    · have h3 : i < c.toNat := by omega
      simp [h32, h3]
    · have hi' : i - 32 < 32 := by omega
      have h3 : i - c.toNat < 32 := by omega
      have h4 : i - 32 - (c.toNat - 32) = i - c.toNat := by omega
      by_cases hc : i < c.toNat
      · have h5 : i - 32 < c.toNat - 32 := by omega
        simp [h32, hc, h5]
      · have h5 : ¬ i - 32 < c.toNat - 32 := by omega
        simp [h32, hi, hi', hc, h3, h4, h5]

theorem value_ushr (a : Int64) (b : Int32) : (ushr a b).value = a.value >>> (b.toNat % 64) := by
  rw [← toNat_count, ushr]
  have hcount := count_cases b
  generalize b &&& 63 = c at hcount ⊢
  rcases hcount with rfl | ⟨h1, h2⟩ | ⟨h1, h2⟩
  · simp [copy, make, value]
  · rw [if_neg (count_ne_zero h1), slt_count (by omega), if_pos (decide_eq_true h2)]
    apply BitVec.eq_of_getLsbD_eq
    intro i hi
    simp only [getLsbD_value, make, BitVec.getLsbD_shiftLeft, BitVec.getLsbD_ushiftRight, BitVec.getLsbD_or,
      BitVec.shiftLeft_eq', BitVec.ushiftRight_eq', toNat_rest h2]
    by_cases h32 : i < 32
    · by_cases h3 : c.toNat + i < 32
      · have h4 : i < 32 - c.toNat := by omega
        simp [h32, h3, h4]
      · have h4 : ¬ i < 32 - c.toNat := by omega
        have h5 : i - (32 - c.toNat) = c.toNat + i - 32 := by omega
        have h6 : 32 ≤ c.toNat + i := by omega
        simp [h32, h3, h4, h5, BitVec.getLsbD_of_ge _ _ h6]
    · have h3 : ¬ c.toNat + i < 32 := by omega
      have h4 : c.toNat + (i - 32) = c.toNat + i - 32 := by omega
      simp [h32, h3, h4]
  · rw [if_neg (count_ne_zero (by omega)), slt_count h2, if_neg (by simpa using h1)]
    apply BitVec.eq_of_getLsbD_eq
    intro i hi
    simp only [getLsbD_value, make, BitVec.getLsbD_ushiftRight, BitVec.ushiftRight_eq', toNat_excess h1]
    have h3 : ¬ c.toNat + i < 32 := by omega
    by_cases h32 : i < 32
    · have h4 : c.toNat - 32 + i = c.toNat + i - 32 := by omega
      simp [h32, h3, h4]
    · have h4 : 32 ≤ c.toNat + i - 32 := by omega
      simp [h32, h3, BitVec.getLsbD_of_ge _ _ h4]

theorem msb_value (a : Int64) : a.value.msb = a.high.msb := by
  rw [value, BitVec.msb_append]
  simp

theorem value_shr (a : Int64) (b : Int32) : (shr a b).value = a.value.sshiftRight (b.toNat % 64) := by
  rw [← toNat_count, shr]
  have hcount := count_cases b
  generalize b &&& 63 = c at hcount ⊢
  rcases hcount with rfl | ⟨h1, h2⟩ | ⟨h1, h2⟩
  · simp [copy, make, value]
  · rw [if_neg (count_ne_zero h1), slt_count (by omega), if_pos (decide_eq_true h2)]
    apply BitVec.eq_of_getLsbD_eq
    intro i hi
    simp only [getLsbD_value, make, Int32.sshr, BitVec.getLsbD_shiftLeft, BitVec.getLsbD_ushiftRight,
      BitVec.getLsbD_sshiftRight, BitVec.getLsbD_or, BitVec.shiftLeft_eq', BitVec.ushiftRight_eq', toNat_rest h2,
      msb_value]
    by_cases h32 : i < 32
    · by_cases h3 : c.toNat + i < 32
      · have h4 : i < 32 - c.toNat := by omega
        have h5 : c.toNat + i < 64 := by omega
        have h6 : ¬ 64 ≤ i := by omega
        simp [h32, h3, h4, h5, h6]
      · have h4 : ¬ i < 32 - c.toNat := by omega
        have h5 : i - (32 - c.toNat) = c.toNat + i - 32 := by omega
        have h6 : 32 ≤ c.toNat + i := by omega
        have h7 : c.toNat + i < 64 := by omega
        have h8 : ¬ 64 ≤ i := by omega
        simp [h32, h3, h4, h5, h7, h8, BitVec.getLsbD_of_ge _ _ h6]
    · have h3 : ¬ c.toNat + i < 32 := by omega
      have h4 : ¬ 32 ≤ i - 32 := by omega
      have h5 : ¬ 64 ≤ i := by omega
      have h6 : c.toNat + (i - 32) = c.toNat + i - 32 := by omega
      by_cases h7 : c.toNat + i < 64
      · have h8 : c.toNat + i - 32 < 32 := by omega
        simp [h32, h3, h4, h5, h6, h7, h8]
      · have h8 : ¬ c.toNat + i - 32 < 32 := by omega
        simp [h32, h4, h5, h6, h7, h8]
  · rw [if_neg (count_ne_zero (by omega)), slt_count h2, if_neg (by simpa using h1)]
    apply BitVec.eq_of_getLsbD_eq
    intro i hi
    have h31 : BitVec.toNat (31 : Int32) = 31 := rfl
    simp only [getLsbD_value, make, Int32.sshr, BitVec.getLsbD_sshiftRight, toNat_excess h1, msb_value, h31]
    have h3 : ¬ 64 ≤ i := by omega
    have h4 : ¬ c.toNat + i < 32 := by omega
    by_cases h32 : i < 32
    · have h5 : c.toNat - 32 + i = c.toNat + i - 32 := by omega
      have h6 : ¬ 32 ≤ i := by omega
      by_cases h7 : c.toNat + i < 64
      · have h8 : c.toNat + i - 32 < 32 := by omega
        simp [h32, h3, h4, h5, h6, h7, h8]
      · have h8 : ¬ c.toNat + i - 32 < 32 := by omega
        simp [h32, h3, h5, h6, h7, h8]
    · have h5 : ¬ 32 ≤ i - 32 := by omega
      have h6 : ¬ c.toNat + i < 64 := by omega
      have hmsb : a.high.msb = a.high.getLsbD 31 := BitVec.msb_eq_getLsbD_last _
      by_cases h7 : i = 32
      · subst h7
        simp [h6, hmsb]
      · have h8 : ¬ 31 + (i - 32) < 32 := by omega
        simp [h32, h3, h5, h6, h8]

/-! ## Comparisons -/

theorem toInt_ucompare (a b : Int64) :
    (ucompare a b).toInt < 0 ∧ a.value.toNat < b.value.toNat ∨ (ucompare a b).toInt = 0 ∧ a.value.toNat = b.value.toNat ∨
      0 < (ucompare a b).toInt ∧ b.value.toNat < a.value.toNat := by
  have hh := Int32.toInt_ucompare a.high b.high
  have hl := Int32.toInt_ucompare a.low b.low
  have hz := Int32.ucompare_eq_zero a.high b.high
  have ha := a.low.isLt
  have hb := b.low.isLt
  rw [toNat_value, toNat_value, ucompare]
  split
  · rename_i hne
    rw [ne_eq, hz, ← BitVec.toNat_inj] at hne
    omega
  · rename_i heq
    rw [ne_eq, not_not, hz] at heq
    rw [heq]
    omega

theorem sle_ucompare (a b : Int64) : (0 : Int32).sle (ucompare a b) = decide (b.value.toNat ≤ a.value.toNat) := by
  have h := toInt_ucompare a b
  rw [BitVec.sle_eq_decide, Int32.toInt_zero, decide_eq_decide]
  omega

theorem isNeg_eq (a : Int64) : a.isNeg = a.value.msb := by
  rw [isNeg, Int32.isNeg, msb_value]
  exact BitVec.slt_zero_eq_msb

theorem toInt_value (a : Int64) : a.value.toInt = a.high.toInt * 2 ^ 32 + a.low.toNat := by
  have hl := a.low.isLt
  have hh := a.high.isLt
  rw [BitVec.toInt_eq_toNat_cond, BitVec.toInt_eq_toNat_cond, toNat_value]
  split <;> split <;> omega

theorem toInt_compare (a b : Int64) :
    (compare a b).toInt < 0 ∧ a.value.toInt < b.value.toInt ∨ (compare a b).toInt = 0 ∧ a.value.toInt = b.value.toInt ∨
      0 < (compare a b).toInt ∧ b.value.toInt < a.value.toInt := by
  have hl := Int32.toInt_ucompare a.low b.low
  have ha := a.low.isLt
  have hb := b.low.isLt
  have ha' := a.high.isLt
  have hb' := b.high.isLt
  have hna := Int32.isNeg_toInt a.high
  have hnb := Int32.isNeg_toInt b.high
  rw [toInt_value, toInt_value, compare]
  by_cases hsign : Int32.isNeg a.high = Int32.isNeg b.high
  · have hsub := Int32.toInt_sub_of_sign hsign
    have hv : (if Int32.isNeg a.high then if Int32.isNeg b.high then
          (if a.high - b.high ≠ 0 then a.high - b.high else Int32.ucompare a.low b.low) else -1
        else if !Int32.isNeg b.high then
          (if a.high - b.high ≠ 0 then a.high - b.high else Int32.ucompare a.low b.low) else 1) =
        if a.high - b.high ≠ 0 then a.high - b.high else Int32.ucompare a.low b.low := by
      rw [← hsign]
      cases Int32.isNeg a.high <;> rfl
    rw [hv]
    split
    · rename_i hne
      rw [ne_eq, ← BitVec.toInt_inj, Int32.toInt_zero, hsub] at hne
      omega
    · rename_i heq
      rw [ne_eq, not_not, ← BitVec.toInt_inj, Int32.toInt_zero, hsub] at heq
      omega
  · cases h1 : Int32.isNeg a.high <;> cases h2 : Int32.isNeg b.high <;> rw [h1, h2] at hsign
    · exact absurd rfl hsign
    · rw [h1, eq_comm, decide_eq_false_iff_not] at hna
      rw [h2, eq_comm, decide_eq_true_eq] at hnb
      have h : (1 : Int32).toInt = 1 := rfl
      simp only [Bool.false_eq_true, if_false, Bool.not_true, h]
      omega
    · rw [h1, eq_comm, decide_eq_true_eq] at hna
      rw [h2, eq_comm, decide_eq_false_iff_not] at hnb
      have h : (-1 : Int32).toInt = -1 := rfl
      simp only [Bool.false_eq_true, if_false, if_true, h]
      omega
    · exact absurd rfl hsign

end Int64

end EvilHaxe.Numeric
