/-
`divMod` is the division that truncates. Its first loop scales the divisor by a power of two until it is not less than
half the dividend, its second loop subtracts the scaled divisors from the largest on; both are bounded by the 64 bits.
-/
import EvilHaxe.Numeric.Words

namespace EvilHaxe.Numeric.Int64

theorem value_or (a b : Int64) : (or a b).value = a.value ||| b.value := by
  rw [value, value, value, BitVec.or_append]
  rfl

theorem toNat_shl_one {a : Int64} (h : a.value.toNat < 2 ^ 63) : (a.shl 1).value.toNat = a.value.toNat * 2 := by
  rw [value_shl, BitVec.toNat_shiftLeft, Nat.shiftLeft_eq]
  show a.value.toNat * 2 ^ 1 % 2 ^ 64 = _
  omega

theorem toNat_ushr_one (a : Int64) : (a.ushr 1).value.toNat = a.value.toNat / 2 := by
  rw [value_ushr, BitVec.toNat_ushiftRight, Nat.shiftRight_eq_div_pow]
  rfl

theorem isNeg_toNat (a : Int64) : a.isNeg = decide (2 ^ 63 ≤ a.value.toNat) := by
  rw [isNeg_eq, BitVec.msb_eq_decide]

theorem neq_zero (a : Int64) : neq a (ofInt 0) = decide (a.value.toNat ≠ 0) := by
  have hl := a.low.isLt
  have hofInt : ofInt 0 = ⟨0, 0⟩ := rfl
  rw [toNat_value, neq, hofInt, Bool.eq_iff_iff, Bool.or_eq_true, bne_iff_ne, bne_iff_ne, decide_eq_true_eq]
  rw [ne_eq, ne_eq, ← BitVec.toNat_inj, ← BitVec.toNat_inj, Int32.toNat_zero]
  omega

/-! ## Loops -/

/-- The first loop, from the divisor scaled by `2 ^ k`. -/
theorem scale_spec {modulus : Int64} {d : Nat} (hm : modulus.value.toNat ≤ 2 ^ 63) (hd : 0 < d) :
    ∀ {fuel k : Nat} {divisor mask : Int64}, 65 ≤ fuel + k → divisor.value.toNat = d * 2 ^ k →
      mask.value.toNat = 2 ^ k → ∃ divisor' mask' j, scale modulus fuel divisor mask = some (divisor', mask') ∧ j ≤ 63 ∧
        divisor'.value.toNat = d * 2 ^ j ∧ mask'.value.toNat = 2 ^ j ∧ modulus.value.toNat < d * 2 ^ (j + 1) := by
  intro fuel
  induction fuel with
  | zero =>
    intro k divisor mask hfuel hdiv hmask
    have hlt := mask.value.isLt
    rw [hmask] at hlt
    have := (Nat.pow_lt_pow_iff_right (by decide : 1 < 2)).mp hlt
    omega
  | succ fuel ih =>
    intro k divisor mask hfuel hdiv hmask
    have hk : k < 64 := by
      have hlt := mask.value.isLt
      rw [hmask] at hlt
      exact (Nat.pow_lt_pow_iff_right (by decide)).mp hlt
    have hsucc : d * 2 ^ (k + 1) = d * 2 ^ k * 2 := by rw [Nat.pow_succ, Nat.mul_assoc]
    rw [scale, isNeg_toNat]
    split
    · rename_i hneg
      rw [decide_eq_true_eq] at hneg
      exact ⟨divisor, mask, k, rfl, by omega, hdiv, hmask, by omega⟩
    · rename_i hneg
      rw [decide_eq_true_eq, not_le] at hneg
      have hmle : 2 ^ k ≤ d * 2 ^ k := Nat.le_mul_of_pos_left _ hd
      have hpos := Nat.two_pow_pos k
      have hdiv' : (divisor.shl 1).value.toNat = d * 2 ^ (k + 1) := by rw [toNat_shl_one hneg, hdiv, hsucc]
      have hmask' : (mask.shl 1).value.toNat = 2 ^ (k + 1) := by rw [toNat_shl_one (by omega), hmask, Nat.pow_succ]
      dsimp only
      rw [sle_ucompare]
      split
      · rename_i hcmp
        rw [decide_eq_true_eq] at hcmp
        have hk' : k + 1 < 64 := by
          have hlt := (mask.shl 1).value.isLt
          rw [hmask'] at hlt
          exact (Nat.pow_lt_pow_iff_right (by decide)).mp hlt
        have hsucc' : d * 2 ^ (k + 1 + 1) = d * 2 ^ k * 2 * 2 := by rw [Nat.pow_succ, ← Nat.mul_assoc, hsucc]
        exact ⟨_, _, k + 1, rfl, by omega, hdiv', hmask', by omega⟩
      · exact ih (by omega) hdiv' hmask'

/-- One round of the second loop, with the divisor scaled by `2 ^ j`. -/
theorem reduce_step {m d j q : Nat} (fuel : Nat) {divisor mask quotient modulus : Int64}
    (hdiv : divisor.value.toNat = d * 2 ^ j) (hmask : mask.value.toNat = 2 ^ j)
    (hquot : quotient.value.toNat = q * 2 ^ (j + 1)) (hm : m = quotient.value.toNat * d + modulus.value.toNat)
    (hmod : modulus.value.toNat < d * 2 ^ (j + 1)) :
    ∃ quotient' modulus' q', reduce (fuel + 1) divisor mask quotient modulus =
        reduce fuel (divisor.ushr 1) (mask.ushr 1) quotient' modulus' ∧
      quotient'.value.toNat = q' * 2 ^ j ∧ m = quotient'.value.toNat * d + modulus'.value.toNat ∧
      modulus'.value.toNat < d * 2 ^ j := by
  have hpos := Nat.two_pow_pos j
  have hdbl : d * 2 ^ (j + 1) = d * 2 ^ j * 2 := by rw [Nat.pow_succ, Nat.mul_assoc]
  rw [reduce, neq_zero, if_pos (decide_eq_true (by omega))]
  dsimp only
  rw [sle_ucompare]
  by_cases htake : divisor.value.toNat ≤ modulus.value.toNat
  · rw [decide_eq_true htake, if_pos rfl, if_pos rfl]
    have hor : (quotient.or mask).value.toNat = (2 * q + 1) * 2 ^ j := by
      have hlt : 2 ^ j < 2 ^ (j + 1) := Nat.pow_lt_pow_succ (by decide)
      rw [value_or, BitVec.toNat_or, hquot, hmask, Nat.mul_comm q, ← Nat.two_pow_add_eq_or_of_lt hlt]
      ring
    have hsub : (modulus.sub divisor).value.toNat = modulus.value.toNat - divisor.value.toNat := by
      have h1 := modulus.value.isLt
      rw [value_sub, BitVec.toNat_sub]
      omega
    refine ⟨_, _, 2 * q + 1, rfl, hor, ?_, by omega⟩
    have hsplit : (2 * q + 1) * 2 ^ j * d = q * 2 ^ (j + 1) * d + d * 2 ^ j := by ring
    rw [hor, hsub, hsplit]
    rw [hquot] at hm
    omega
  · rw [decide_eq_false htake, if_neg Bool.false_ne_true, if_neg Bool.false_ne_true]
    refine ⟨_, _, 2 * q, rfl, by rw [hquot]; ring, hm, by omega⟩

/-- The second loop, before the subtraction of the divisor scaled by `2 ^ j`. -/
theorem reduce_spec {m d : Nat} :
    ∀ {j fuel q : Nat} {divisor mask quotient modulus : Int64}, j + 2 ≤ fuel → divisor.value.toNat = d * 2 ^ j →
      mask.value.toNat = 2 ^ j → quotient.value.toNat = q * 2 ^ (j + 1) →
      m = quotient.value.toNat * d + modulus.value.toNat → modulus.value.toNat < d * 2 ^ (j + 1) →
      ∃ r, reduce fuel divisor mask quotient modulus = some r ∧ r.quotient.value.toNat = m / d ∧
        r.modulus.value.toNat = m % d := by
  intro j
  induction j with
  | zero =>
    intro fuel q divisor mask quotient modulus hfuel hdiv hmask hquot hm hmod
    obtain ⟨fuel, rfl⟩ : ∃ n, fuel = n + 1 + 1 := ⟨fuel - 2, by omega⟩
    obtain ⟨quotient', modulus', q', hstep, -, hm', hmod'⟩ := reduce_step (fuel + 1) hdiv hmask hquot hm hmod
    have hmask' : (mask.ushr 1).value.toNat = 0 := by
      rw [toNat_ushr_one, hmask]
      rfl
    rw [hstep, reduce, neq_zero, hmask', if_neg (by simp)]
    rw [Nat.pow_zero, Nat.mul_one] at hmod'
    have huniq := (Nat.div_mod_unique (by omega)).mpr ⟨(by rw [hm', Nat.mul_comm d, Nat.add_comm] :
      modulus'.value.toNat + d * quotient'.value.toNat = m), hmod'⟩
    exact ⟨_, rfl, huniq.1.symm, huniq.2.symm⟩
  | succ j ih =>
    intro fuel q divisor mask quotient modulus hfuel hdiv hmask hquot hm hmod
    obtain ⟨fuel, rfl⟩ : ∃ n, fuel = n + 1 := ⟨fuel - 1, by omega⟩
    obtain ⟨quotient', modulus', q', hstep, hquot', hm', hmod'⟩ := reduce_step fuel hdiv hmask hquot hm hmod
    rw [hstep]
    refine ih (by omega) ?_ ?_ hquot' hm' hmod'
    · rw [toNat_ushr_one, hdiv, Nat.pow_succ, ← Nat.mul_assoc, Nat.mul_div_cancel _ (by decide)]
    · rw [toNat_ushr_one, hmask, Nat.pow_succ, Nat.mul_div_cancel _ (by decide)]

/-! ## `divMod` -/

theorem toNat_ofInt_zero : (ofInt 0).value.toNat = 0 := rfl

theorem toNat_ofInt_one : (ofInt 1).value.toNat = 1 := rfl

/-- Both loops, from the absolute values. -/
theorem loops_spec {fuel : Nat} (hfuel : 65 ≤ fuel) {modulus divisor : Int64} (hm : modulus.value.toNat ≤ 2 ^ 63)
    (hd : divisor.value ≠ 0) : ∃ divisor' mask r, scale modulus fuel divisor (ofInt 1) = some (divisor', mask) ∧
      reduce fuel divisor' mask (ofInt 0) modulus = some r ∧ r.quotient.value = modulus.value / divisor.value ∧
      r.modulus.value = modulus.value % divisor.value := by
  have hd' : 0 < divisor.value.toNat := by
    rw [Nat.pos_iff_ne_zero]
    exact fun h => hd (BitVec.eq_of_toNat_eq h)
  obtain ⟨divisor', mask, j, hscale, hj, hdiv, hmask, hlt⟩ :=
    scale_spec hm hd' (by omega : 65 ≤ fuel + 0) (Nat.mul_one _).symm toNat_ofInt_one
  have hq0 : (ofInt 0).value.toNat = 0 * 2 ^ (j + 1) := by rw [toNat_ofInt_zero, Nat.zero_mul]
  have hm0 : modulus.value.toNat = (ofInt 0).value.toNat * divisor.value.toNat + modulus.value.toNat := by
    rw [toNat_ofInt_zero, Nat.zero_mul, Nat.zero_add]
  obtain ⟨r, hr, hq, hmod⟩ := reduce_spec (by omega : j + 2 ≤ fuel) hdiv hmask hq0 hm0 hlt
  refine ⟨divisor', mask, r, hscale, hr, BitVec.eq_of_toNat_eq ?_, BitVec.eq_of_toNat_eq ?_⟩
  · rw [hq, BitVec.toNat_udiv]
  · rw [hmod, BitVec.toNat_umod]

/-- The absolute value, of 64 bits. -/
theorem value_abs (a : Int64) : (if a.isNeg then a.neg else a).value = if a.value.msb then -a.value else a.value := by
  rw [isNeg_eq]
  split
  · exact value_neg a
  · rfl

theorem toNat_abs_le (a : Int64) : (if a.value.msb then -a.value else a.value).toNat ≤ 2 ^ 63 := by
  have h := a.value.isLt
  rw [BitVec.msb_eq_decide]
  split
  · rename_i hneg
    rw [decide_eq_true_eq] at hneg
    rw [BitVec.toNat_neg]
    omega
  · rename_i hneg
    rw [decide_eq_true_eq] at hneg
    omega

theorem value_negIf (p : Bool) (a : Int64) : (if p then a.neg else a).value = if p then -a.value else a.value := by
  cases p
  · rfl
  · exact value_neg a

/-- The quotient and the remainder of `divMod` are those of signed division. -/
theorem divMod_spec {fuel : Nat} (hfuel : 65 ≤ fuel) (a b : Int64) (hb : b.value ≠ 0) :
    ∃ r, divMod fuel a b = .ok (some r) ∧ r.quotient.value = a.value.sdiv b.value ∧
      r.modulus.value = a.value.srem b.value := by
  have hzero : ¬ (b.high = 0 ∧ b.low = 0) := by
    rintro ⟨hh, hl⟩
    apply hb
    rw [value, hh, hl]
    rfl
  rw [divMod, if_neg hzero]
  split
  · rename_i hone
    have hval : b.value = 1 := by
      rw [value, hone.1, hone.2]
      rfl
    refine ⟨_, rfl, ?_, ?_⟩
    · rw [hval]
      exact (BitVec.sdiv_one).symm
    · have hz : (ofInt 0).value = 0#64 := BitVec.eq_of_toNat_eq rfl
      rw [hval]
      exact hz.trans BitVec.srem_one.symm
  · have ha' : (if a.isNeg then a.neg else a.copy).value = if a.value.msb then -a.value else a.value := value_abs a
    have hb' := value_abs b
    have hne : (if b.isNeg then b.neg else b).value ≠ 0 := by
      rw [hb']
      split
      · exact fun h => hb (BitVec.neg_eq_zero_iff.mp h)
      · exact hb
    have hle := toNat_abs_le a
    rw [← ha'] at hle
    obtain ⟨divisor', mask, r, hscale, hr, hq, hmod⟩ := loops_spec hfuel hle hne
    simp only [hscale, hr, Option.bind_eq_bind, Option.bind_some, Option.pure_def]
    refine ⟨_, rfl, ?_, ?_⟩
    · rw [value_negIf, hq, ha', hb', isNeg_eq, isNeg_eq, BitVec.sdiv_eq]
      cases a.value.msb <;> cases b.value.msb <;> rfl
    · rw [value_negIf, hmod, ha', hb', isNeg_eq, BitVec.srem_eq]
      cases a.value.msb <;> cases b.value.msb <;> rfl

/-! ## The arithmetic of `Int64` -/

theorem eq_iff (a b : Int64) : eq a b = true ↔ a = b := by
  cases a
  cases b
  simp [eq]

theorem neq_iff (a b : Int64) : neq a b = true ↔ a ≠ b := by
  have h : neq a b = !eq a b := by simp [eq, neq, bne, Bool.not_and]
  rw [h, Bool.not_eq_true', ← Bool.not_eq_true, ne_eq, eq_iff]

/-- The operations of `Int64` are those of two's complement modulo `2 ^ 64`, and for every divisor but zero `divMod`
ends, with the quotient truncated toward zero and a remainder with the sign of the dividend. -/
theorem arithmetic_correct (a b : Int64) (n : Int32) :
    (add a b).value = a.value + b.value ∧ (sub a b).value = a.value - b.value ∧ (neg a).value = -a.value ∧
    (mul a b).value = a.value * b.value ∧
    (shl a n).value = a.value <<< (n.toNat % 64) ∧ (shr a n).value = a.value.sshiftRight (n.toNat % 64) ∧
    (ushr a n).value = a.value >>> (n.toNat % 64) ∧
    ((compare a b).toInt < 0 ↔ a.value.toInt < b.value.toInt) ∧ ((compare a b).toInt = 0 ↔ a = b) ∧
    ((ucompare a b).toInt < 0 ↔ a.value.toNat < b.value.toNat) ∧ ((ucompare a b).toInt = 0 ↔ a = b) ∧
    (eq a b = true ↔ a = b) ∧ (neq a b = true ↔ a ≠ b) ∧
    (lt a b = true ↔ a.value.toInt < b.value.toInt) ∧ (lte a b = true ↔ a.value.toInt ≤ b.value.toInt) ∧
    (gt a b = true ↔ b.value.toInt < a.value.toInt) ∧ (gte a b = true ↔ b.value.toInt ≤ a.value.toInt) ∧
    (b.value ≠ 0 → ∀ fuel ≥ 65, ∃ r, divMod fuel a b = .ok (some r) ∧
      r.quotient.value = BitVec.ofInt 64 (a.value.toInt.tdiv b.value.toInt) ∧
      r.modulus.value.toInt = a.value.toInt.tmod b.value.toInt) := by
  have hc := toInt_compare a b
  have hu := toInt_ucompare a b
  have hval : a.value.toNat = b.value.toNat ↔ a = b :=
    ⟨fun h => value_injective (BitVec.eq_of_toNat_eq h), fun h => h ▸ rfl⟩
  have hint : a.value.toInt = b.value.toInt ↔ a = b :=
    ⟨fun h => value_injective (BitVec.eq_of_toInt_eq h), fun h => h ▸ rfl⟩
  have h0 := Int32.toInt_zero
  refine ⟨value_add a b, value_sub a b, value_neg a, value_mul a b, value_shl a n, value_shr a n, value_ushr a n,
    by omega, ⟨fun h => hint.mp (by omega), fun h => ?_⟩, by omega, ⟨fun h => hval.mp (by omega), fun h => ?_⟩,
    eq_iff a b, neq_iff a b, ?_, ?_, ?_, ?_, fun hb fuel hfuel => ?_⟩
  · have := hint.mpr h
    omega
  · have := hval.mpr h
    omega
  · rw [lt, BitVec.slt_eq_decide, decide_eq_true_eq]
    omega
  · rw [lte, BitVec.sle_eq_decide, decide_eq_true_eq]
    omega
  · rw [gt, BitVec.slt_eq_decide, decide_eq_true_eq]
    omega
  · rw [gte, BitVec.sle_eq_decide, decide_eq_true_eq]
    omega
  · obtain ⟨r, hr, hq, hm⟩ := divMod_spec hfuel a b hb
    refine ⟨r, hr, ?_, by rw [hm, BitVec.toInt_srem]⟩
    apply BitVec.eq_of_toInt_eq
    rw [hq, BitVec.toInt_sdiv, BitVec.toInt_ofInt]

/-- The least integer divided by -1. -/
theorem arithmetic_correct_least : ∃ r, divMod 65 ⟨0x80000000, 0⟩ ⟨-1, -1⟩ = .ok (some r) ∧
    r.quotient.value = BitVec.ofInt 64 ((-2 ^ 63 : Int).tdiv (-1)) ∧ r.modulus.value.toInt = (-2 ^ 63 : Int).tmod (-1) :=
  have h := arithmetic_correct ⟨0x80000000, 0⟩ ⟨-1, -1⟩ 1
  h.2.2.2.2.2.2.2.2.2.2.2.2.2.2.2.2.2 (by decide) 65 (by decide)

end EvilHaxe.Numeric.Int64
