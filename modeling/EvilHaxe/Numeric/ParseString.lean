/-
What `parseString` makes of a numeral: the digits are added up modulo `2 ^ 64`, and that a sum has left the range is read
off its sign, so a numeral out of range is noticed only if one of its ends, from a digit that is not zero on, has a sum
whose sign is wrong.
-/
import EvilHaxe.Numeric.Division
import EvilHaxe.Numeric.Int64

namespace EvilHaxe.Numeric

/-! ## Numerals -/

def IsDigit (c : Char) : Prop := '0'.toNat ≤ c.toNat ∧ c.toNat ≤ '9'.toNat

instance (c : Char) : Decidable (IsDigit c) := inferInstanceAs (Decidable (_ ∧ _))

def digit (c : Char) : Nat := c.toNat - '0'.toNat

/-- The number that digits denote. -/
def number : Str → Nat
  | [] => 0
  | c :: cs => digit c * 10 ^ cs.length + number cs

def signed (neg : Bool) (n : Nat) : Int := if neg then -n else n

def InRange (n : Int) : Prop := -2 ^ 63 ≤ n ∧ n < 2 ^ 63

instance (n : Int) : Decidable (InRange n) := inferInstanceAs (Decidable (_ ∧ _))

/-- The sign of the sum `n` is wrong, modulo `2 ^ 64`. -/
def Caught (neg : Bool) (n : Nat) : Prop :=
  if neg then n % 2 ^ 64 = 0 ∨ 2 ^ 63 < n % 2 ^ 64 else 2 ^ 63 ≤ n % 2 ^ 64

instance (neg : Bool) (n : Nat) : Decidable (Caught neg n) := by
  unfold Caught
  infer_instance

/-- Some end of the numeral begins with a digit that is not zero and has a sum whose sign is wrong. -/
def Noticed (neg : Bool) : Str → Prop
  | [] => False
  | c :: cs => (c ≠ '0' ∧ Caught neg (number (c :: cs))) ∨ Noticed neg cs

instance instDecidableNoticed (neg : Bool) : (ds : Str) → Decidable (Noticed neg ds)
  | [] => inferInstanceAs (Decidable False)
  | _ :: cs =>
    have := instDecidableNoticed neg cs
    inferInstanceAs (Decidable (_ ∨ _))

theorem noticed_append {neg : Bool} {ds : Str} (h : Noticed neg ds) (front : Str) : Noticed neg (front ++ ds) := by
  induction front with
  | nil => exact h
  | cons c front ih => exact .inr ih

theorem number_le_append (front rest : Str) : number rest ≤ number (front ++ rest) := by
  induction front with
  | nil => exact Nat.le_refl _
  | cons c front ih => exact ih.trans (Nat.le_add_left _ _)

theorem number_snoc (ds : Str) (c : Char) : number (ds ++ [c]) = 10 * number ds + digit c := by
  induction ds with
  | nil => simp [number]
  | cons d ds ih =>
    rw [List.cons_append, number, number, ih, List.length_append, List.length_singleton, Nat.pow_succ]
    ring

theorem digitChar_digit {d : Nat} (hd : d < 10) : IsDigit d.digitChar ∧ digit d.digitChar = d := by
  match d with
  | 0 | 1 | 2 | 3 | 4 | 5 | 6 | 7 | 8 | 9 => decide

theorem number_toDigits (n : Nat) :
    number (Nat.toDigits 10 n) = n ∧ ∀ c ∈ Nat.toDigits 10 n, IsDigit c := by
  induction n using Nat.strongRecOn with
  | _ n ih =>
    by_cases hn : n < 10
    · obtain ⟨hdigit, hvalue⟩ := digitChar_digit hn
      rw [Nat.toDigits_of_lt_base hn]
      exact ⟨by simpa [number] using hvalue, List.forall_mem_singleton.2 hdigit⟩
    · obtain ⟨hdigit, hvalue⟩ := digitChar_digit (Nat.mod_lt n (by decide : 0 < 10))
      obtain ⟨hnumber, hdigits⟩ := ih (n / 10) (by omega)
      rw [Nat.toDigits_of_base_le (by decide) (by omega), number_snoc, hnumber, hvalue]
      exact ⟨by omega, List.forall_mem_append.2 ⟨hdigits, List.forall_mem_singleton.2 hdigit⟩⟩

theorem digit_pos {c : Char} (hc : IsDigit c) (hzero : c ≠ '0') : 0 < digit c := by
  have hne : c.toNat ≠ '0'.toNat := fun h => hzero (Char.toNat_inj.1 h)
  have hle := hc.1
  unfold digit
  omega

theorem digit_lt {c : Char} (hc : IsDigit c) : digit c < 10 := by
  have hhigh : c.toNat ≤ '9'.toNat := hc.2
  have hnine : '9'.toNat = '0'.toNat + 9 := rfl
  unfold digit
  omega

theorem number_pos {c : Char} (hc : IsDigit c) (hzero : c ≠ '0') (rest : Str) : 0 < number (c :: rest) := by
  have hd := digit_pos hc hzero
  have hpow : 0 < 10 ^ rest.length := Nat.pow_pos (by decide)
  have hmul := Nat.mul_pos hd hpow
  rw [number]
  omega

/-- In a numeral within the range no sum is noticed. -/
theorem not_noticed_of_inRange {neg : Bool} {ds : Str} (hds : ∀ c ∈ ds, IsDigit c)
    (hrange : InRange (signed neg (number ds))) : ¬ Noticed neg ds := by
  induction ds with
  | nil => exact id
  | cons c cs ih =>
    rintro (⟨hzero, hcaught⟩ | hrest)
    · have hpos := number_pos (hds c List.mem_cons_self) hzero cs
      obtain ⟨hlow, hhigh⟩ := hrange
      cases neg with
      | false =>
        simp only [signed, Caught, Bool.false_eq_true, if_false] at hlow hhigh hcaught
        omega
      | true =>
        simp only [signed, Caught, if_true] at hlow hhigh hcaught
        omega
    · refine ih (fun d hd => hds d (List.mem_cons_of_mem c hd)) ?_ hrest
      have hle := number_le_append [c] cs
      obtain ⟨hlow, hhigh⟩ := hrange
      rw [List.singleton_append] at hle
      constructor
      · cases neg <;> simp only [signed, Bool.false_eq_true, if_false, if_true] at hlow ⊢ <;> omega
      · cases neg <;> simp only [signed, Bool.false_eq_true, if_false, if_true] at hhigh ⊢ <;> omega

namespace Int64Helper

open EvilHaxe.Numeric.Int64

/-! ## One digit -/

theorem value_ofInt_digit {d : Nat} (hd : d < 10) : (ofInt (BitVec.ofInt 32 d)).value = BitVec.ofNat 64 d := by
  match d with
  | 0 | 1 | 2 | 3 | 4 | 5 | 6 | 7 | 8 | 9 => decide

theorem isNeg_ofNat {x : Int64} {n : Nat} (h : x.value = BitVec.ofNat 64 n) :
    x.isNeg = decide (2 ^ 63 ≤ n % 2 ^ 64) := by
  rw [isNeg_toNat, h, BitVec.toNat_ofNat]

theorem isNeg_neg_ofNat {x : Int64} {n : Nat} (h : x.value = -BitVec.ofNat 64 n) :
    x.isNeg = decide (n % 2 ^ 64 ≠ 0 ∧ n % 2 ^ 64 ≤ 2 ^ 63) := by
  rw [isNeg_toNat, h, BitVec.toNat_neg, BitVec.toNat_ofNat, decide_eq_decide]
  omega

/-- The word that stands for a sum. -/
def word (neg : Bool) (n : Nat) : BitVec 64 := if neg then -BitVec.ofNat 64 n else BitVec.ofNat 64 n

theorem addDigit_spec {neg : Bool} {current multiplier : Int64} {n m d : Nat} (hcurrent : current.value = word neg n)
    (hmultiplier : multiplier.value = BitVec.ofNat 64 m) (hd : 0 < d) (hten : d < 10) :
    if Caught neg (d * m + n) then ∃ e, addDigit neg current multiplier d = .error e
    else ∃ x, addDigit neg current multiplier d = .ok x ∧ x.value = word neg (d * m + n) := by
  have hne : (d : Int) ≠ 0 := by omega
  have hproduct : (mul multiplier (ofInt (BitVec.ofInt 32 d))).value = BitVec.ofNat 64 (d * m) := by
    rw [value_mul, hmultiplier, value_ofInt_digit hten, ← BitVec.ofNat_mul, Nat.mul_comm]
  cases neg with
  | false =>
    have hsum : (add current (mul multiplier (ofInt (BitVec.ofInt 32 d)))).value = BitVec.ofNat 64 (d * m + n) := by
      rw [value_add, hcurrent, hproduct, word, if_neg Bool.false_ne_true, ← BitVec.ofNat_add, Nat.add_comm]
    rw [addDigit, if_pos hne]
    simp only [Bool.false_eq_true, if_false, Caught, isNeg_ofNat hsum, decide_eq_true_eq, word]
    split
    · exact ⟨_, rfl⟩
    · exact ⟨_, rfl, hsum⟩
  | true =>
    have hsum : (sub current (mul multiplier (ofInt (BitVec.ofInt 32 d)))).value = -BitVec.ofNat 64 (d * m + n) := by
      rw [value_sub, hcurrent, hproduct, word, if_pos rfl, Nat.add_comm, BitVec.ofNat_add, BitVec.neg_add]
    have hnegative : addDigit true current multiplier d = if (2 ^ 63 < (d * m + n) % 2 ^ 64 ∨ (d * m + n) % 2 ^ 64 = 0)
        then .error .underflow else .ok (sub current (mul multiplier (ofInt (BitVec.ofInt 32 d)))) := by
      rw [addDigit, if_pos hne]
      simp only [if_true, isNeg_neg_ofNat hsum, Bool.not_eq_true', decide_eq_false_iff_not]
      congr 1
      rw [eq_iff_iff]
      omega
    rw [hnegative]
    simp only [Caught, if_true, or_comm]
    split
    · exact ⟨_, rfl⟩
    · exact ⟨_, rfl, hsum⟩

/-! ## The loop -/

theorem parseLoop_digit {neg : Bool} {c : Char} (hc : IsDigit c) (cs : Str) (current multiplier : Int64) :
    parseLoop neg (c :: cs) current multiplier =
      addDigit neg current multiplier (digit c) >>= fun x => parseLoop neg cs x (mul multiplier (ofInt 10)) := by
  have hsub : (c.toNat : Int) - '0'.toNat = digit c := (Int.ofNat_sub hc.1).symm
  have hin : ¬ ((digit c : Int) < 0 ∨ 9 < (digit c : Int)) := by
    have hlt := digit_lt hc
    omega
  rw [parseLoop, hsub, if_neg hin]

/-- The digits of `rest` have been added up; those of `todo`, from the last on, are ahead. -/
theorem parseLoop_spec {neg : Bool} {todo rest : Str} {current multiplier : Int64} (hdigits : ∀ c ∈ todo, IsDigit c)
    (hrest : ¬ Noticed neg rest) (hcurrent : current.value = word neg (number rest))
    (hmultiplier : multiplier.value = BitVec.ofNat 64 (10 ^ rest.length)) :
    (Noticed neg (todo.reverse ++ rest) ∧ ∃ e, parseLoop neg todo current multiplier = .error e) ∨
      (¬ Noticed neg (todo.reverse ++ rest) ∧ ∃ x, parseLoop neg todo current multiplier = .ok x ∧
        x.value = word neg (number (todo.reverse ++ rest))) := by
  induction todo generalizing rest current multiplier with
  | nil => exact .inr ⟨hrest, current, rfl, hcurrent⟩
  | cons c todo ih =>
    have hc := hdigits c List.mem_cons_self
    have htodo : ∀ d ∈ todo, IsDigit d := fun d hd => hdigits d (List.mem_cons_of_mem c hd)
    have hnext : (mul multiplier (ofInt 10)).value = BitVec.ofNat 64 (10 ^ (c :: rest).length) := by
      have hten : (ofInt 10).value = BitVec.ofNat 64 10 := rfl
      rw [value_mul, hmultiplier, hten, ← BitVec.ofNat_mul, List.length_cons, Nat.pow_succ]
    rw [parseLoop_digit hc, List.reverse_cons, List.append_assoc, List.singleton_append]
    by_cases hzero : c = '0'
    · subst hzero
      have hnumber : number ('0' :: rest) = number rest := by simp [number, digit]
      have hnot : ¬ Noticed neg ('0' :: rest) := by
        rintro (⟨hne, -⟩ | h)
        · exact hne rfl
        · exact hrest h
      exact ih htodo hnot (hnumber ▸ hcurrent) hnext
    · have hspec := addDigit_spec hcurrent hmultiplier (digit_pos hc hzero) (digit_lt hc)
      split at hspec
      next hcaught =>
        obtain ⟨e, he⟩ := hspec
        rw [he]
        have hhere : Noticed neg (c :: rest) := Or.inl ⟨hzero, hcaught⟩
        exact .inl ⟨noticed_append hhere _, e, rfl⟩
      next hcaught =>
        obtain ⟨x, hx, hvalue⟩ := hspec
        have hnot : ¬ Noticed neg (c :: rest) := by
          rintro (⟨-, h⟩ | h)
          · exact hcaught h
          · exact hrest h
        rw [hx]
        exact ih htodo hnot hvalue hnext

/-! ## The whole text -/

theorem toInt_word {neg : Bool} {n : Nat} (h : InRange (signed neg n)) : (word neg n).toInt = signed neg n := by
  obtain ⟨hlow, hhigh⟩ := h
  cases neg with
  | false =>
    rw [signed, if_neg Bool.false_ne_true] at hlow hhigh
    rw [word, if_neg Bool.false_ne_true, signed, if_neg Bool.false_ne_true, ← BitVec.ofInt_natCast, BitVec.toInt_ofInt,
      Int.bmod_eq_of_le (by omega) (by omega)]
  | true =>
    rw [signed, if_pos rfl] at hlow hhigh
    rw [word, if_pos rfl, signed, if_pos rfl, ← BitVec.ofInt_natCast, ← BitVec.ofInt_neg, BitVec.toInt_ofInt,
      Int.bmod_eq_of_le (by omega) (by omega)]

theorem parseString_signed {s ds : Str} {neg : Bool} (hs : StringTools.trim s = if neg then '-' :: ds else ds)
    (hds : ∀ c ∈ ds, IsDigit c) :
    (Noticed neg ds ∧ ∃ e, parseString s = .error e) ∨
      (¬ Noticed neg ds ∧ ∃ x, parseString s = .ok x ∧ x.value = word neg (number ds)) := by
  have hloop : parseString s = parseLoop neg ds.reverse (ofInt 0) (ofInt 1) := by
    rw [parseString, hs]
    cases neg with
    | true => rfl
    | false =>
      have hhead : (ds.head? == some '-') = false := by
        cases ds with
        | nil => rfl
        | cons c cs =>
          have hc := hds c List.mem_cons_self
          have hne : c ≠ '-' := by
            rintro rfl
            exact absurd hc (by decide)
          simpa using hne
      simp only [Bool.false_eq_true, if_false, hhead]
  have hstart : (ofInt 0).value = word neg (number []) := by cases neg <;> rfl
  have hone : (ofInt 1).value = BitVec.ofNat 64 (10 ^ ([] : Str).length) := by decide
  have h := parseLoop_spec (fun c hc => hds c (List.mem_reverse.1 hc)) id hstart hone
  rw [List.reverse_reverse, List.append_nil] at h
  rwa [hloop]

end Int64Helper

/-! ## Printing -/

namespace Int64

theorem toInt_neg {x : Int64} (h : x.value.toInt.natAbs < 2 ^ 63) : (neg x).value.toInt = -x.value.toInt := by
  rw [value_neg, BitVec.toInt_neg, Int.bmod_eq_of_le (by omega) (by omega)]

theorem text_low {x : Int64} {d : Nat} (hx : x.value.toInt = d) (hd : d < 10) : text x.low = [Nat.digitChar d] := by
  have hvalue : x.value.toNat = d := by
    have hlt := x.value.isLt
    rw [BitVec.toInt_eq_toNat_cond] at hx
    split at hx <;> omega
  have hlow : x.low = BitVec.ofNat 32 d := by
    rw [toNat_value] at hvalue
    refine BitVec.eq_of_toNat_eq ?_
    rw [BitVec.toNat_ofNat]
    omega
  rw [hlow]
  match d with
  | 0 | 1 | 2 | 3 | 4 | 5 | 6 | 7 | 8 | 9 => decide

theorem isNeg_toInt (x : Int64) : x.isNeg = decide (x.value.toInt < 0) := by
  rw [isNeg_eq, BitVec.msb_eq_toInt]

/-- One round of the loop of `toString`: the last digit of what is left goes in front. -/
theorem toStringLoop_round {fuel : Nat} (hfuel : 65 ≤ fuel) (rounds : Nat) {i : Int64} (hi : i.value.toInt ≠ 0)
    (str : Str) : ∃ i', i'.value.toInt.natAbs = i.value.toInt.natAbs / 10 ∧
      toStringLoop fuel (rounds + 1) i str =
        toStringLoop fuel rounds i' (Nat.digitChar (i.value.toInt.natAbs % 10) :: str) := by
  have hten : (ofInt 10).value.toInt = 10 := by decide
  obtain ⟨r, hr, hquotient, hmodulus⟩ := divMod_spec hfuel i (ofInt 10) (by decide)
  have hbound : i.value.toInt.natAbs ≤ 2 ^ 63 := by
    have hle := BitVec.le_toInt i.value
    have hlt := BitVec.toInt_lt (x := i.value)
    omega
  have hq : r.quotient.value.toInt = i.value.toInt.tdiv 10 := by
    have habs : (i.value.toInt.tdiv 10).natAbs = i.value.toInt.natAbs / 10 := Int.natAbs_tdiv _ _
    rw [hquotient, BitVec.toInt_sdiv, hten, Int.bmod_eq_of_le (by omega) (by omega)]
  have hm : r.modulus.value.toInt = i.value.toInt.tmod 10 := by rw [hmodulus, BitVec.toInt_srem, hten]
  have hqabs : r.quotient.value.toInt.natAbs = i.value.toInt.natAbs / 10 := by
    rw [hq, Int.natAbs_tdiv]
    rfl
  have hmabs : r.modulus.value.toInt.natAbs = i.value.toInt.natAbs % 10 := by
    rw [hm, Int.natAbs_tmod]
    rfl
  have hne : neq i (ofInt 0) = true := (neq_iff i _).2 fun h => hi (by rw [h]; decide)
  simp only [toStringLoop, hne, if_true, hr, bind, Except.bind, isNeg_toInt, decide_eq_true_eq]
  have hlt : i.value.toInt.natAbs % 10 < 10 := Nat.mod_lt _ (by decide)
  by_cases hneg : r.modulus.value.toInt < 0
  · refine ⟨neg r.quotient, ?_, ?_⟩
    · rw [toInt_neg (by omega), Int.natAbs_neg, hqabs]
    · have htext := text_low (x := neg r.modulus) (by rw [toInt_neg (by omega)]; omega) hlt
      rw [if_pos hneg, htext]
      rfl
  · refine ⟨r.quotient, hqabs, ?_⟩
    have htext := text_low (x := r.modulus) (by omega) hlt
    rw [if_neg hneg, htext]
    rfl

/-- The digits of a number, none of zero. -/
def digitsOf (m : Nat) : Str := if m = 0 then [] else Nat.toDigits 10 m

theorem digitsOf_snoc {m : Nat} (hm : m ≠ 0) : digitsOf m = digitsOf (m / 10) ++ [Nat.digitChar (m % 10)] := by
  rw [digitsOf, if_neg hm, digitsOf]
  by_cases hlt : m < 10
  · rw [if_pos (Nat.div_eq_of_lt hlt), Nat.toDigits_of_lt_base hlt, Nat.mod_eq_of_lt hlt, List.nil_append]
  · rw [if_neg (by omega), Nat.toDigits_of_base_le (by decide) (by omega)]

theorem toStringLoop_zero {fuel : Nat} (rounds : Nat) {i : Int64} (hi : i.value.toInt = 0) (str : Str) :
    toStringLoop fuel (rounds + 1) i str = .ok (some str) := by
  have heq : neq i (ofInt 0) = false := by
    rw [← Bool.not_eq_true, neq_iff, not_not]
    exact value_injective (BitVec.eq_of_toInt_eq (by rw [hi]; decide))
  rw [toStringLoop, heq]
  rfl

theorem toStringLoop_spec {fuel : Nat} (hfuel : 65 ≤ fuel) {rounds : Nat} {i : Int64}
    (hi : i.value.toInt.natAbs < 10 ^ rounds) (str : Str) :
    toStringLoop fuel (rounds + 1) i str = .ok (some (digitsOf i.value.toInt.natAbs ++ str)) := by
  induction rounds generalizing i str with
  | zero =>
    have hzero : i.value.toInt = 0 := by omega
    rw [toStringLoop_zero 0 hzero, hzero]
    rfl
  | succ rounds ih =>
    by_cases hzero : i.value.toInt = 0
    · rw [toStringLoop_zero (rounds + 1) hzero, hzero]
      rfl
    · obtain ⟨i', hi', hround⟩ := toStringLoop_round hfuel (rounds + 1) hzero str
      have hlt : i'.value.toInt.natAbs < 10 ^ rounds := by
        rw [hi']
        rw [Nat.pow_succ'] at hi
        exact Nat.div_lt_of_lt_mul hi
      rw [hround, ih hlt, hi', digitsOf_snoc (Int.natAbs_ne_zero.2 hzero), List.append_assoc, List.singleton_append]

theorem toList_repr (n : Int) :
    n.repr.toList = if n < 0 then '-' :: Nat.toDigits 10 n.natAbs else Nat.toDigits 10 n.natAbs := by
  cases n with
  | ofNat m =>
    rw [if_neg (by simp)]
    exact String.toList_ofList
  | negSucc m =>
    rw [if_pos (Int.negSucc_lt_zero m), Int.repr, String.toList_append, Nat.repr]
    exact congrArg ('-' :: ·) String.toList_ofList

/-- An integer is printed as its sign and the digits of its absolute value. -/
theorem toString_spec {fuel : Nat} (hfuel : 65 ≤ fuel) (x : Int64) :
    toString fuel x = .ok (some x.value.toInt.repr.toList) := by
  by_cases hzero : eq x (ofInt 0) = true
  · rw [toString, if_pos hzero, (eq_iff _ _).1 hzero]
    rfl
  · obtain ⟨rounds, rfl⟩ : ∃ rounds, fuel = rounds + 1 := ⟨fuel - 1, by omega⟩
    have hne : x.value.toInt ≠ 0 := by
      intro h
      refine hzero ((eq_iff _ _).2 (value_injective (BitVec.eq_of_toInt_eq ?_)))
      rw [h]
      decide
    have hlt : x.value.toInt.natAbs < 10 ^ rounds := by
      have hle := BitVec.le_toInt x.value
      have hlt : x.value.toInt < 2 ^ 63 := BitVec.toInt_lt
      have hpow : 10 ^ 64 ≤ 10 ^ rounds := Nat.pow_le_pow_right (by decide) (by omega)
      omega
    rw [toString, if_neg hzero, toStringLoop_spec hfuel hlt, toList_repr, digitsOf, if_neg (Int.natAbs_ne_zero.2 hne),
      List.append_nil, isNeg_toInt]
    by_cases hneg : x.value.toInt < 0
    · rw [if_pos hneg, decide_eq_true hneg]
      rfl
    · rw [if_neg hneg, decide_eq_false hneg]
      rfl

theorem repr_signed (n : Int) : ∃ neg ds, (∀ c ∈ ds, IsDigit c) ∧ signed neg (number ds) = n ∧
    n.repr.toList = if neg then '-' :: ds else ds := by
  obtain ⟨hnumber, hdigits⟩ := number_toDigits n.natAbs
  refine ⟨decide (n < 0), Nat.toDigits 10 n.natAbs, hdigits, ?_, ?_⟩
  · rw [hnumber, signed]
    by_cases hneg : n < 0
    · rw [if_pos (decide_eq_true hneg)]
      omega
    · rw [decide_eq_false hneg, if_neg Bool.false_ne_true]
      omega
  · simp only [toList_repr, decide_eq_true_eq]

end Int64

namespace StringTools

theorem trim_eq_self {s : Str} (h : ∀ c ∈ s, isSpace c = false) : trim s = s := by
  have hkeep : ∀ {l : Str}, (∀ c ∈ l, isSpace c = false) → l.dropWhile isSpace = l := by
    intro l hl
    cases l with
    | nil => rfl
    | cons c l => rw [List.dropWhile_cons, hl c List.mem_cons_self, if_neg Bool.false_ne_true]
  have hback : rtrim s = s := by
    rw [rtrim, hkeep fun c hc => h c (List.mem_reverse.1 hc), List.reverse_reverse]
  rw [trim, hback, ltrim, hkeep h]

theorem trim_signed {neg : Bool} {ds : Str} (hds : ∀ c ∈ ds, IsDigit c) :
    trim (if neg then '-' :: ds else ds) = if neg then '-' :: ds else ds := by
  have hdigit : ∀ c ∈ ds, isSpace c = false := by
    intro c hc
    obtain ⟨hlow, hhigh⟩ : 48 ≤ c.toNat ∧ c.toNat ≤ 57 := hds c hc
    rw [isSpace, Bool.or_eq_false_iff, Bool.and_eq_false_iff, decide_eq_false_iff_not, decide_eq_false_iff_not,
      beq_eq_false_iff_ne]
    omega
  refine trim_eq_self ?_
  cases neg with
  | false => exact hdigit
  | true => exact List.forall_mem_cons.2 ⟨rfl, hdigit⟩

end StringTools

namespace Int64Helper

open EvilHaxe.Numeric.Int64

/-- `parseString` does with the text of `n` what it promises. -/
def ParsesAs (s : Str) (n : Int) : Prop :=
  (InRange n → ∃ x, parseString s = .ok x ∧ x.value.toInt = n) ∧ (¬ InRange n → ∃ e, parseString s = .error e)

/-- Every integer is printed as a text from which it is parsed. A numeral is parsed as what it denotes, or thrown out if
that is out of range, exactly if it is in range or one of the sums of its ends has the wrong sign. -/
theorem textCodec_iff {s ds : Str} {neg : Bool} (hs : StringTools.trim s = if neg then '-' :: ds else ds)
    (hds : ∀ c ∈ ds, IsDigit c) :
    (∀ x : Int64, ∃ text, (∀ fuel ≥ 65, toString fuel x = .ok (some text)) ∧ parseString text = .ok x) ∧
      (ParsesAs s (signed neg (number ds)) ↔ InRange (signed neg (number ds)) ∨ Noticed neg ds) := by
  constructor
  · intro x
    obtain ⟨neg', ds', hds', hnumber, htext⟩ := repr_signed x.value.toInt
    have hrange : InRange (signed neg' (number ds')) := by
      rw [hnumber]
      exact ⟨BitVec.le_toInt x.value, BitVec.toInt_lt⟩
    refine ⟨x.value.toInt.repr.toList, fun fuel hfuel => toString_spec hfuel x, ?_⟩
    rw [htext]
    rcases parseString_signed (StringTools.trim_signed hds') hds' with ⟨hnoticed, -⟩ | ⟨-, y, hy, hvalue⟩
    · exact absurd hnoticed (not_noticed_of_inRange hds' hrange)
    · have hxy : y.value.toInt = x.value.toInt := by rw [hvalue, toInt_word hrange, hnumber]
      rw [hy, value_injective (BitVec.eq_of_toInt_eq hxy)]
  · rcases parseString_signed hs hds with ⟨hnoticed, e, he⟩ | ⟨hnot, x, hx, hvalue⟩
    · have hout : ¬ InRange (signed neg (number ds)) := fun h => not_noticed_of_inRange hds h hnoticed
      exact ⟨fun _ => .inr hnoticed, fun _ => ⟨fun h => absurd h hout, fun _ => ⟨e, he⟩⟩⟩
    · constructor
      · rintro ⟨-, hthrows⟩
        by_contra hneither
        rw [not_or] at hneither
        obtain ⟨e, he⟩ := hthrows hneither.1
        rw [he] at hx
        cases hx
      · rintro (hrange | hnoticed)
        · exact ⟨fun _ => ⟨x, hx, by rw [hvalue, toInt_word hrange]⟩, fun h => absurd hrange h⟩
        · exact absurd hnoticed hnot

theorem digits_of_all {s : Str} (h : s.all (fun c => decide (IsDigit c)) = true) : ∀ c ∈ s, IsDigit c := by
  intro c hc
  exact of_decide_eq_true (List.all_eq_true.1 h c hc)

/-- `textCodec_iff` at a numeral out of range whose sum has the wrong sign. -/
theorem textCodec_iff_overflow : ParsesAs " 9223372036854775808".toList 9223372036854775808 := by
  have h := (@textCodec_iff " 9223372036854775808".toList "9223372036854775808".toList false (by decide)
    (digits_of_all (by decide))).2
  exact h.2 (.inr (by decide))

/-- The sum of `18446744073709551616` is zero: it is parsed as zero. -/
theorem parseString_wraps : ¬ ((∀ x : Int64, ∃ text, (∀ fuel ≥ 65, toString fuel x = .ok (some text)) ∧
      parseString text = .ok x) ∧
    ∀ (s ds : Str) (neg : Bool), StringTools.trim s = (if neg then '-' :: ds else ds) → (∀ c ∈ ds, IsDigit c) →
      ParsesAs s (signed neg (number ds))) := by
  rintro ⟨-, hparses⟩
  have htrim : StringTools.trim "18446744073709551616".toList = "18446744073709551616".toList := by decide
  have hdigits : ∀ c ∈ "18446744073709551616".toList, IsDigit c := digits_of_all (by decide)
  obtain ⟨-, hthrows⟩ := hparses "18446744073709551616".toList _ false htrim hdigits
  obtain ⟨e, he⟩ := hthrows (by decide)
  rcases @parseString_signed _ _ false htrim hdigits with ⟨hnoticed, -⟩ | ⟨-, x, hx, -⟩
  · exact absurd hnoticed (by decide)
  · rw [he] at hx
    cases hx

end Int64Helper

end EvilHaxe.Numeric
