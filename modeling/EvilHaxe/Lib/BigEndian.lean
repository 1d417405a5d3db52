/-
Numbers as bytes, the high byte first: writing an integer of any size in a fixed number of bytes, and reading it back
with a sign or without.
-/
import Mathlib.Data.Int.ModEq
import Mathlib.Tactic.Positivity
import Mathlib.Tactic.Ring

namespace EvilHaxe.BigEndian

def lowByte (n : Int) : Nat := (n % 256).toNat

/-- The low `k` bytes of `n`, in two's complement. -/
def encode : Nat → Int → List Nat
  | 0, _ => []
  | k + 1, n => lowByte (n >>> (8 * k)) :: encode k n

/-- `k` bytes off the input, as a natural number. -/
def readUnsigned (k : Nat) (bytes : List Nat) : Option (Nat × List Nat) :=
  if k ≤ bytes.length then some ((bytes.take k).foldl (fun n b => n * 256 + b) 0, bytes.drop k) else none

def signed (k n : Nat) : Int := if 2 * n < 256 ^ k then n else n - 256 ^ k

def readSigned (k : Nat) (bytes : List Nat) : Option (Int × List Nat) :=
  (readUnsigned k bytes).map fun (n, rest) => (signed k n, rest)

theorem encode_length (k : Nat) (n : Int) : (encode k n).length = k := by
  induction k with
  | zero => rfl
  | succ k ih => rw [encode, List.length_cons, ih]

theorem foldl_encode (k : Nat) (n : Int) (a : Nat) :
    (((encode k n).foldl (fun n b => n * 256 + b) a : Nat) : Int) = a * 256 ^ k + n % 256 ^ k := by
  induction k generalizing a with
  | zero => simp [encode, Int.emod_one]
  | succ k ih =>
    have hshift : n >>> (8 * k) = n / 256 ^ k := by
      rw [Int.shiftRight_eq_div_pow, pow_mul]
      norm_num
    have hlow : (lowByte (n / 256 ^ k) : Int) = n / 256 ^ k % 256 := by
      unfold lowByte
      omega
    have hsplit : n % 256 ^ (k + 1) = n / 256 ^ k % 256 * 256 ^ k + n % 256 ^ k := by
      rw [pow_succ, Int.emod_def, Int.emod_def (n / 256 ^ k), Int.emod_def n (256 ^ k),
        ← Int.ediv_ediv_of_nonneg (by positivity)]
      ring
    rw [encode, List.foldl_cons, ih, hshift]
    push_cast
    rw [hlow, hsplit, pow_succ]
    ring

theorem readUnsigned_encode (k : Nat) (n : Int) (rest : List Nat) :
    readUnsigned k (encode k n ++ rest) = some ((n % 256 ^ k).toNat, rest) := by
  have h := foldl_encode k n 0
  have hlen := encode_length k n
  unfold readUnsigned
  rw [if_pos (by rw [List.length_append, hlen]; omega), List.take_left' hlen, List.drop_left' hlen]
  congr 2
  omega

theorem readSigned_encode (k : Nat) (n : Int) (rest : List Nat) :
    readSigned k (encode k n ++ rest) = some (signed k (n % 256 ^ k).toNat, rest) := by
  rw [readSigned, readUnsigned_encode]
  rfl

/-- The signed number that is read is the number written, where it lies in the range. -/
theorem signed_emod {k : Nat} (hk : 0 < k) (n : Int) :
    signed k (n % 256 ^ k).toNat = n ↔ -(256 ^ k / 2) ≤ n ∧ n < 256 ^ k / 2 := by
  obtain ⟨m, hm⟩ : ∃ m : Int, (256 : Int) ^ k = 2 * m ∧ 0 < m := by
    obtain ⟨j, rfl⟩ : ∃ j, k = j + 1 := ⟨k - 1, by omega⟩
    refine ⟨256 ^ j * 128, ?_, by positivity⟩
    rw [pow_succ]
    ring
  have hnat : ((256 ^ k : Nat) : Int) = 2 * m := by
    push_cast
    exact hm.1
  have h0 := Int.emod_nonneg n (show (2 * m : Int) ≠ 0 by omega)
  have h1 := Int.emod_lt_of_pos n (show (0 : Int) < 2 * m by omega)
  have hdiv := Int.emod_add_mul_ediv n (2 * m)
  unfold signed
  rw [hm.1]
  have hhalf : 2 * m / 2 = m := by omega
  rw [hhalf]
  constructor
  · intro h
    split_ifs at h with hlt
    · omega
    · omega
  · rintro ⟨hlo, hhi⟩
    by_cases hn : 0 ≤ n
    · have : n % (2 * m) = n := Int.emod_eq_of_lt hn (by omega)
      rw [this, if_pos (by omega)]
      omega
    · have : n % (2 * m) = n + 2 * m := by
        rw [← Int.add_emod_right]
        exact Int.emod_eq_of_lt (by omega) (by omega)
      rw [this, if_neg (by omega)]
      omega

theorem unsigned_emod (k : Nat) (n : Int) : ((n % 256 ^ k).toNat : Int) = n ↔ 0 ≤ n ∧ n < 256 ^ k := by
  have hpos : (0 : Int) < 256 ^ k := by positivity
  have h0 := Int.emod_nonneg n hpos.ne'
  have h1 := Int.emod_lt_of_pos n hpos
  constructor
  · intro h
    omega
  · rintro ⟨hlo, hhi⟩
    rw [Int.emod_eq_of_lt hlo hhi]
    omega

end EvilHaxe.BigEndian
