/-
The bits of a number as a list, from the lowest or from the highest.
-/
import Mathlib.Data.Nat.Bitwise
import Mathlib.Tactic.Ring

namespace Lib

/-! ## From the lowest bit -/

/-- The `n` lowest bits of `x`, from the lowest. -/
def lowFirst : Nat → Nat → List Bool
  | 0, _ => []
  | n + 1, x => (x % 2 == 1) :: lowFirst n (x / 2)

/-- The number with the given bits, from the lowest. -/
def ofLowFirst : List Bool → Nat
  | [] => 0
  | b :: w => b.toNat + 2 * ofLowFirst w

@[simp] theorem length_lowFirst (n x : Nat) : (lowFirst n x).length = n := by
  induction n generalizing x with
  | zero => rfl
  | succ n ih => rw [lowFirst, List.length_cons, ih]

theorem toNat_bit (x : Nat) : (x % 2 == 1).toNat = x % 2 := by
  rcases Nat.mod_two_eq_zero_or_one x with h | h <;> rw [h] <;> rfl

theorem ofLowFirst_lowFirst (n x : Nat) : ofLowFirst (lowFirst n x) = x % 2 ^ n := by
  induction n generalizing x with
  | zero => rw [Nat.pow_zero, Nat.mod_one]; rfl
  | succ n ih =>
    rw [lowFirst, ofLowFirst, ih, toNat_bit, Nat.pow_succ', Nat.mod_mul]

theorem lowFirst_add (m n x : Nat) : lowFirst (m + n) x = lowFirst m x ++ lowFirst n (x / 2 ^ m) := by
  induction m generalizing x with
  | zero => rw [Nat.zero_add, Nat.pow_zero, Nat.div_one]; rfl
  | succ m ih => rw [Nat.add_right_comm, lowFirst, lowFirst, ih, List.cons_append, Nat.pow_succ', Nat.div_div_eq_div_mul]

theorem lowFirst_mod (n x : Nat) : lowFirst n (x % 2 ^ n) = lowFirst n x := by
  induction n generalizing x with
  | zero => rfl
  | succ n ih =>
    rw [lowFirst, lowFirst, Nat.pow_succ', Nat.mod_mul_right_mod, Nat.mod_mul_right_div_self, ih]

/-- A number below `2 ^ m` in front of another. -/
theorem lowFirst_or {m x : Nat} (hx : x < 2 ^ m) (n y : Nat) :
    lowFirst (m + n) (x ||| y <<< m) = lowFirst m x ++ lowFirst n y := by
  rw [Nat.lor_comm, ← Nat.shiftLeft_add_eq_or_of_lt hx, Nat.shiftLeft_eq, lowFirst_add, ← lowFirst_mod m (_ + _),
    Nat.mul_add_mod_self_right, Nat.mod_eq_of_lt hx, Nat.mul_comm, Nat.mul_add_div (Nat.two_pow_pos m),
    Nat.div_eq_of_lt hx, Nat.add_zero]

/-! ## From the highest bit -/

/-- The `n` lowest bits of `x`, from the highest. -/
def highFirst : Nat → Nat → List Bool
  | 0, _ => []
  | n + 1, x => (x / 2 ^ n % 2 == 1) :: highFirst n x

@[simp] theorem length_highFirst (n x : Nat) : (highFirst n x).length = n := by
  induction n with
  | zero => rfl
  | succ n ih => rw [highFirst, List.length_cons, ih]

/-- The number with the given bits, from the highest. -/
def ofHighFirst : List Bool → Nat
  | [] => 0
  | b :: w => b.toNat * 2 ^ w.length + ofHighFirst w

theorem ofHighFirst_lt (w : List Bool) : ofHighFirst w < 2 ^ w.length := by
  induction w with
  | nil => exact Nat.one_pos
  | cons b w ih =>
    have hb : b.toNat * 2 ^ w.length ≤ 1 * 2 ^ w.length := Nat.mul_le_mul_right _ (Bool.toNat_le b)
    rw [ofHighFirst, List.length_cons, Nat.pow_succ]
    omega

theorem highFirst_add (m n x : Nat) : highFirst (m + n) x = highFirst m (x / 2 ^ n) ++ highFirst n x := by
  induction m with
  | zero => rw [Nat.zero_add]; rfl
  | succ m ih =>
    rw [Nat.add_right_comm, highFirst, highFirst, ih, List.cons_append, Nat.div_div_eq_div_mul, ← Nat.pow_add,
      Nat.add_comm n]

theorem highFirst_mod_of_le {k n : Nat} (h : k ≤ n) (x : Nat) : highFirst k (x % 2 ^ n) = highFirst k x := by
  induction k with
  | zero => rfl
  | succ k ih =>
    have hbit : x % 2 ^ n / 2 ^ k % 2 = x / 2 ^ k % 2 := by
      obtain ⟨m, rfl⟩ : ∃ m, n = k + 1 + m := ⟨n - (k + 1), by omega⟩
      rw [Nat.pow_add, Nat.pow_succ, Nat.mul_assoc, Nat.mod_mul_right_div_self, Nat.mod_mul_right_mod]
    rw [highFirst, highFirst, hbit, ih (by omega)]

theorem highFirst_mod (n x : Nat) : highFirst n (x % 2 ^ n) = highFirst n x := highFirst_mod_of_le le_rfl x

theorem highFirst_ofHighFirst (w : List Bool) : highFirst w.length (ofHighFirst w) = w := by
  induction w with
  | nil => rfl
  | cons b w ih =>
    have hlt := ofHighFirst_lt w
    have hdiv : (b.toNat * 2 ^ w.length + ofHighFirst w) / 2 ^ w.length = b.toNat := by
      rw [Nat.mul_comm, Nat.mul_add_div (Nat.two_pow_pos _), Nat.div_eq_of_lt hlt, Nat.add_zero]
    have hmod : (b.toNat * 2 ^ w.length + ofHighFirst w) % 2 ^ w.length = ofHighFirst w := by
      rw [Nat.mul_add_mod_self_right, Nat.mod_eq_of_lt hlt]
    rw [ofHighFirst, List.length_cons, highFirst, hdiv, ← highFirst_mod, hmod, ih]
    cases b <;> rfl

theorem ofHighFirst_highFirst (n x : Nat) : ofHighFirst (highFirst n x) = x % 2 ^ n := by
  induction n with
  | zero => rw [Nat.pow_zero, Nat.mod_one]; rfl
  | succ n ih =>
    rw [highFirst, ofHighFirst, ih, toNat_bit, length_highFirst, Nat.pow_succ, Nat.mod_mul]
    ring

theorem ofHighFirst_append_zeros (w : List Bool) (n : Nat) :
    ofHighFirst (w ++ List.replicate n false) = ofHighFirst w * 2 ^ n := by
  induction w with
  | nil =>
    rw [List.nil_append]
    induction n with
    | zero => rfl
    | succ n ih =>
      rw [List.replicate_succ]
      calc ofHighFirst (false :: List.replicate n false) = ofHighFirst (List.replicate n false) := by
            rw [ofHighFirst, Bool.toNat_false, Nat.zero_mul, Nat.zero_add]
        _ = ofHighFirst [] * 2 ^ (n + 1) := by rw [ih, ofHighFirst, Nat.zero_mul, Nat.zero_mul]
  | cons b w ih =>
    rw [List.cons_append, ofHighFirst, ih, ofHighFirst, List.length_append, List.length_replicate, Nat.pow_add]
    ring

/-! ## Groups of bits -/

/-- The first `n` groups of `k` bits. -/
def groups (k : Nat) : Nat → List Bool → List (List Bool)
  | 0, _ => []
  | n + 1, w => w.take k :: groups k n (w.drop k)

/-- All bits in groups of `k`, the last one filled up with zeros. -/
def paddedGroups (k : Nat) (w : List Bool) : List (List Bool) :=
  groups k ((w.length + (k - 1)) / k) (w ++ List.replicate k false)

@[simp] theorem length_groups (k n : Nat) (w : List Bool) : (groups k n w).length = n := by
  induction n generalizing w with
  | zero => rfl
  | succ n ih => rw [groups, List.length_cons, ih]

theorem groups_append {k n : Nat} {w : List Bool} (h : n * k ≤ w.length) (t : List Bool) :
    groups k n (w ++ t) = groups k n w := by
  induction n generalizing w with
  | zero => rfl
  | succ n ih =>
    rw [Nat.succ_mul] at h
    rw [groups, groups, List.take_append_of_le_length (by omega), List.drop_append_of_le_length (by omega),
      ih (by rw [List.length_drop]; omega)]

theorem groups_succ (k n : Nat) (w : List Bool) : groups k (n + 1) w = groups k n w ++ [(w.drop (n * k)).take k] := by
  induction n generalizing w with
  | zero => rw [Nat.zero_mul]; rfl
  | succ n ih =>
    rw [groups, ih, groups, List.cons_append, List.drop_drop, Nat.succ_mul, Nat.add_comm k]

theorem length_of_mem_groups {k n : Nat} {w : List Bool} (h : n * k ≤ w.length) : ∀ g ∈ groups k n w, g.length = k := by
  induction n generalizing w with
  | zero => nofun
  | succ n ih =>
    rw [Nat.succ_mul] at h
    exact List.forall_mem_cons.2 ⟨List.length_take_of_le (by omega), ih (by rw [List.length_drop]; omega)⟩

theorem flatten_groups (k n : Nat) (w : List Bool) : (groups k n w).flatten = w.take (n * k) := by
  induction n generalizing w with
  | zero => rw [Nat.zero_mul]; rfl
  | succ n ih => rw [groups, List.flatten_cons, ih, Nat.succ_mul, Nat.add_comm, List.take_add]

/-- The bits of numbers, in groups, are those of each number. -/
theorem groups_flatMap {α : Type} {k : Nat} {bits : α → List Bool} (hbits : ∀ a, (bits a).length = k) (as : List α)
    (t : List Bool) : groups k as.length (as.flatMap bits ++ t) = as.map bits := by
  induction as with
  | nil => rfl
  | cons a as ih =>
    rw [List.length_cons, groups, List.flatMap_cons, List.append_assoc, List.take_left' (hbits a),
      List.drop_left' (hbits a), ih, List.map_cons]

end Lib
