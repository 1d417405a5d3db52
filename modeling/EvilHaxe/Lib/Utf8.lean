/-
UTF-8: the bytes of a code point, and how the first of them tells their number.
-/
import Mathlib.Data.List.Basic

namespace Lib.Utf8

/-- The bytes of a code point. -/
def encode (c : Char) : List Nat :=
  let n := c.toNat
  if n < 0x80 then [n]
  else if n < 0x800 then [0xC0 + n / 64, 0x80 + n % 64]
  else if n < 0x10000 then [0xE0 + n / 4096, 0x80 + n / 64 % 64, 0x80 + n % 64]
  else [0xF0 + n / 262144, 0x80 + n / 4096 % 64, 0x80 + n / 64 % 64, 0x80 + n % 64]

/-- The bytes of a text. -/
def bytes (a : List Char) : List Nat := a.flatMap encode

/-- The byte and code point are a single one. -/
def Ascii (c : Char) : Prop := c.toNat < 0x80

instance (c : Char) : Decidable (Ascii c) := inferInstanceAs (Decidable (c.toNat < 0x80))

theorem toNat_lt (c : Char) : c.toNat < 0x110000 := by
  obtain h | ⟨-, h⟩ := c.valid
  · exact Nat.lt_trans h (by decide)
  · exact h

/-- The bytes of a code point by their number, with the code point as they give it. -/
inductive Shape (c : Char) : List Nat → Prop
  | one (h : c.toNat < 0x80) : Shape c [c.toNat]
  | two {n x : Nat} (hn : n < 0x20) (h2 : 2 ≤ n) (hx : x < 0x40) (h : c.toNat = n * 64 + x) : Shape c [0xC0 + n, 0x80 + x]
  | three {n x y : Nat} (hn : n < 0x10) (hx : x < 0x40) (hy : y < 0x40) (hbig : 0x800 ≤ c.toNat)
      (h : c.toNat = (n * 64 + x) * 64 + y) : Shape c [0xE0 + n, 0x80 + x, 0x80 + y]
  | four {n x y z : Nat} (hn : n < 0x5) (hx : x < 0x40) (hy : y < 0x40) (hz : z < 0x40) (hbig : 0x10000 ≤ c.toNat)
      (h : c.toNat = ((n * 64 + x) * 64 + y) * 64 + z) : Shape c [0xF0 + n, 0x80 + x, 0x80 + y, 0x80 + z]

theorem shape_encode (c : Char) : Shape c (encode c) := by
  have hlt := toNat_lt c
  rw [encode]
  split
  · next h => exact .one h
  · next h1 =>
    split
    · next h2 => exact .two (by omega) (by omega) (by omega) (by omega)
    · next h2 =>
      split
      · next h3 => exact .three (by omega) (by omega) (by omega) (by omega) (by omega)
      · next h3 => exact .four (by omega) (by omega) (by omega) (by omega) (by omega) (by omega)

/-- The number that the first bytes give. -/
def value : List Nat → Nat
  | [] => 0
  | n :: s =>
    if n < 0x80 then n
    else if n < 0xE0 then (n - 0xC0) * 64 + (s.getD 0 0 - 0x80)
    else if n < 0xF0 then ((n - 0xE0) * 64 + (s.getD 0 0 - 0x80)) * 64 + (s.getD 1 0 - 0x80)
    else (((n - 0xF0) * 64 + (s.getD 0 0 - 0x80)) * 64 + (s.getD 1 0 - 0x80)) * 64 + (s.getD 2 0 - 0x80)

theorem value_encode (c : Char) (r : List Nat) : value (encode c ++ r) = c.toNat := by
  have h := shape_encode c
  generalize encode c = s at h
  cases h with
  | one h => exact if_pos h
  | two hn h2 hx h =>
    rw [List.cons_append, value, if_neg (by omega), if_pos (by omega)]
    simp only [List.cons_append, List.getD_cons_zero]
    omega
  | three hn hx hy hbig h =>
    rw [List.cons_append, value, if_neg (by omega), if_neg (by omega), if_pos (by omega)]
    simp only [List.cons_append, List.getD_cons_zero, List.getD_cons_succ]
    omega
  | four hn hx hy hz hbig h =>
    rw [List.cons_append, value, if_neg (by omega), if_neg (by omega), if_neg (by omega)]
    simp only [List.cons_append, List.getD_cons_zero, List.getD_cons_succ]
    omega

/-- No code point begins with the bytes of another one. -/
theorem encode_prefixFree {c d : Char} {r : List Nat} (h : encode c <+: encode d ++ r) : c = d := by
  obtain ⟨s, hs⟩ := h
  have hv := value_encode c s
  rw [hs, value_encode] at hv
  exact (Char.toNat_inj.1 hv).symm

theorem encode_ascii {c : Char} (h : Ascii c) : encode c = [c.toNat] := if_pos h

/-- The bytes of what is not a single one. -/
theorem le_of_mem_encode {c : Char} (h : ¬Ascii c) : ∀ n ∈ encode c, 0x80 ≤ n := by
  have hs := shape_encode c
  generalize encode c = s at hs
  intro n hn
  cases hs with
  | one h' => exact absurd h' h
  | two =>
    simp only [List.mem_cons, List.not_mem_nil, or_false] at hn
    omega
  | three =>
    simp only [List.mem_cons, List.not_mem_nil, or_false] at hn
    omega
  | four =>
    simp only [List.mem_cons, List.not_mem_nil, or_false] at hn
    omega

theorem length_encode_pos (c : Char) : 0 < (encode c).length := by
  have hs := shape_encode c
  generalize encode c = s at hs
  cases hs <;> exact Nat.succ_pos _

theorem one_lt_length_encode {c : Char} (h : ¬Ascii c) : 1 < (encode c).length := by
  have hs := shape_encode c
  generalize encode c = s at hs
  cases hs with
  | one h' => exact absurd h' h
  | two => exact Nat.lt_add_one 1
  | three => exact Nat.succ_lt_succ (Nat.succ_pos _)
  | four => exact Nat.succ_lt_succ (Nat.succ_pos _)

/-! ## Texts -/

variable {a b : List Char}

theorem bytes_append (a b : List Char) : bytes (a ++ b) = bytes a ++ bytes b := List.flatMap_append

theorem bytes_cons (c : Char) (a : List Char) : bytes (c :: a) = encode c ++ bytes a := List.flatMap_cons

theorem bytes_snoc (a : List Char) (c : Char) : bytes (a ++ [c]) = bytes a ++ encode c := by
  rw [bytes_append, bytes_cons]
  exact congrArg _ (List.append_nil _)

theorem length_bytes_pos (h : a ≠ []) : 0 < (bytes a).length := by
  cases a with
  | nil => exact absurd rfl h
  | cons c a =>
    have hc := length_encode_pos c
    rw [bytes_cons, List.length_append]
    omega

theorem length_bytes_snoc (a : List Char) (c : Char) : (bytes (a ++ [c])).length = (bytes a).length + (encode c).length := by
  rw [bytes_snoc, List.length_append]

/-- The byte at which a code point of a text begins. -/
def offset (a : List Char) (i : Nat) : Nat := (bytes (a.take i)).length

theorem offset_append (x y : List Char) : offset (x ++ y) x.length = (bytes x).length := by
  rw [offset, List.take_left]

theorem offset_snoc (x : List Char) (c : Char) (y : List Char) :
    offset (x ++ c :: y) (x.length + 1) = (bytes x).length + (encode c).length := by
  have h := offset_append (x ++ [c]) y
  rw [List.append_assoc, List.singleton_append, List.length_append, List.length_singleton] at h
  rw [h, length_bytes_snoc]

theorem offset_zero : offset a 0 = 0 := rfl

/-- A text at one of its code points. -/
theorem split_at {i : Nat} (h : i < a.length) : ∃ x c y, a = x ++ c :: y ∧ x.length = i :=
  ⟨a.take i, a[i], a.drop (i + 1), by rw [← List.drop_eq_getElem_cons h, List.take_append_drop],
    List.length_take_of_le (Nat.le_of_lt h)⟩

theorem offset_lt {i : Nat} (h : i < a.length) : offset a i < (bytes a).length := by
  obtain ⟨x, c, y, rfl, rfl⟩ := split_at h
  have hpos := length_bytes_pos (List.cons_ne_nil c y)
  rw [offset_append, bytes_append, List.length_append]
  omega

theorem drop_bytes_offset (a : List Char) (i : Nat) : (bytes a).drop (offset a i) = bytes (a.drop i) := by
  have h := bytes_append (a.take i) (a.drop i)
  rw [List.take_append_drop] at h
  rw [h, offset, List.drop_left]

end Lib.Utf8
