/-
The digest of a string is the hexadecimal text of the digest of its bytes. `Sha256` hands the length of the string to
`doEncode`, and so only where that is the number of its bytes.
-/
import EvilHaxe.Crypto.Digests

namespace EvilHaxe.Crypto.Digest

/-! ## Digits of words -/

/-- A field of bits is the same by both shifts. -/
theorem sshiftRight_and (x : Word) {k w : Nat} (h : k + w ≤ 32) :
    x.sshiftRight k &&& BitVec.ofNat 32 (2 ^ w - 1) = x >>> k &&& BitVec.ofNat 32 (2 ^ w - 1) := by
  apply BitVec.eq_of_getLsbD_eq
  intro i hi
  simp only [BitVec.getLsbD_and, BitVec.getLsbD_sshiftRight, BitVec.getLsbD_ushiftRight, BitVec.getLsbD_ofNat,
    Nat.testBit_two_pow_sub_one]
  by_cases hw : i < w
  · have hk : k + i < 32 := by omega
    have hn : ¬32 ≤ i := by omega
    simp [hk, hn]
  · simp [hw]

theorem toNat_field (x : Word) {k w : Nat} (h : k + w ≤ 32) :
    (x.sshiftRight k &&& BitVec.ofNat 32 (2 ^ w - 1)).toNat = x.toNat / 2 ^ k % 2 ^ w := by
  have hw : 2 ^ w - 1 < 2 ^ 32 := by
    have h1 : 2 ^ w ≤ 2 ^ 32 := Nat.pow_le_pow_right (by decide) (by omega)
    have h2 : 0 < 2 ^ w := Nat.two_pow_pos w
    omega
  rw [sshiftRight_and x h, BitVec.toNat_and, BitVec.toNat_ushiftRight, BitVec.toNat_ofNat, Nat.mod_eq_of_lt hw,
    Nat.and_two_pow_sub_one_eq_mod, Nat.shiftRight_eq_div_pow]

theorem toNat_nibble (x : Word) {k : Nat} (h : k ≤ 28) : (x.sshiftRight k &&& 0x0F).toNat = x.toNat / 2 ^ k % 16 :=
  toNat_field x (show k + 4 ≤ 32 by omega)

theorem toNat_byte (x : Word) {k : Nat} (h : k ≤ 24) : (x.sshiftRight k &&& 0xFF).toNat = x.toNat / 2 ^ k % 256 :=
  toNat_field x (show k + 8 ≤ 32 by omega)

theorem toNat_lowByte (x : Word) : (x &&& 0xFF).toNat = x.toNat % 256 := by
  have h := toNat_byte x (Nat.zero_le 24)
  rwa [BitVec.sshiftRight_zero, Nat.pow_zero, Nat.div_one] at h

theorem toNat_highByte (x : Word) : (x >>> 24).toNat = x.toNat / 2 ^ 24 := by
  rw [BitVec.toNat_ushiftRight, Nat.shiftRight_eq_div_pow]

/-- The digits of a byte. -/
theorem hex_byte (c : Nat) : toHex [c] = [hexChar (c / 16), hexChar (c % 16)] := by
  rw [toHex, List.flatMap_singleton, Nat.shiftRight_eq_div_pow, Nat.and_two_pow_sub_one_eq_mod c 4]

theorem toHex_cons (c : Nat) (b : Octets) : toHex (c :: b) = [hexChar (c / 16), hexChar (c % 16)] ++ toHex b := by
  rw [← hex_byte, toHex, List.flatMap_cons, toHex, toHex, List.flatMap_singleton]

theorem toHex_flatMap (f : Word → Octets) (a : List Word) : toHex (a.flatMap f) = a.flatMap fun x => toHex (f x) :=
  List.flatMap_assoc

/-! ## `Md5` -/

namespace Md5

theorem andShift_eq (n : Nat) : andShift (n <<< 3) = modShift (n * 8) := by
  funext i
  rw [andShift, modShift, Nat.shiftLeft_eq, Nat.shiftLeft_eq, Nat.and_two_pow_sub_one_eq_mod _ 2]

theorem str2blks_eq (s : List Char) : str2blks s = bytes2blks (ofString s) := by
  rw [str2blks, bytes2blks, andShift_eq]

theorem hex_word (num : Word) :
    ((List.range 4).flatMap fun j =>
        [hexChar (num.sshiftRight (j * 8 + 4) &&& 0x0F).toNat, hexChar (num.sshiftRight (j * 8) &&& 0x0F).toNat]) =
      toHex (lowFirst num) := by
  have hr : List.range 4 = [0, 1, 2, 3] := rfl
  rw [hr, lowFirst]
  simp only [List.flatMap_cons, List.flatMap_nil, List.map_cons, List.map_nil, toHex_cons, List.append_nil]
  rw [toNat_nibble num (by decide), toNat_nibble num (by decide), toNat_nibble num (by decide),
    toNat_nibble num (by decide), toNat_nibble num (by decide), toNat_nibble num (by decide),
    toNat_nibble num (by decide), toNat_nibble num (by decide), toNat_lowByte num, toNat_byte num (by decide),
    toNat_byte num (by decide), toNat_highByte]
  have hn : num.toNat < 4294967296 := num.isLt
  have h0 : toHex [] = [] := rfl
  rw [h0]
  simp only [List.cons_append, List.nil_append, List.cons.injEq, and_true]
  refine ⟨?_, ?_, ?_, ?_, ?_, ?_, ?_, ?_⟩ <;> congr 1 <;> omega

theorem hex_eq (a : List Word) : hex a = toHex (a.flatMap lowFirst) := by
  rw [toHex_flatMap, hex]
  exact congrArg (a.flatMap ·) (funext hex_word)

theorem encode_eq (s : List Char) : encode s = toHex (make (ofString s)) := by
  rw [encode, make, hex_eq, str2blks_eq]

end Md5

/-! ## `Sha1` and `Sha256` -/

/-- Digits of a number, the highest first. -/
def nibbles : Nat → Nat → List Char → List Char
  | 0, _, s => s
  | k + 1, n, s => nibbles k (n / 16) (hexChars.getD (n % 16) '0' :: s)

theorem nibbles_zero (k : Nat) (s : List Char) : nibbles k 0 s = List.replicate k '0' ++ s := by
  induction k generalizing s with
  | zero => rfl
  | succ k ih =>
    rw [nibbles, Nat.zero_div, ih, List.replicate_succ', List.append_assoc]
    rfl

/-- The padded digits of `StringTools.hex`. -/
theorem hexLoop_eq (k n : Nat) (h : n < 16 ^ (k + 1)) (s : List Char) :
    List.replicate (k + 1 + s.length - (hexLoop (k + 1) n s).length) '0' ++ hexLoop (k + 1) n s = nibbles (k + 1) n s := by
  have hshift : n >>> 4 = n / 16 := Nat.shiftRight_eq_div_pow n 4
  have hand : n &&& 15 = n % 16 := Nat.and_two_pow_sub_one_eq_mod n 4
  induction k generalizing n s with
  | zero =>
    have hz : n / 16 = 0 := by omega
    rw [hexLoop, hshift, hand, hz, if_neg (Nat.lt_irrefl 0), List.length_cons, Nat.add_comm, Nat.sub_self, nibbles, hz]
    rfl
  | succ k ih =>
    rw [hexLoop, hshift, hand, nibbles]
    by_cases hz : n / 16 = 0
    · rw [hz, if_neg (Nat.lt_irrefl 0), nibbles_zero, List.length_cons]
      congr 2
      omega
    · have hlt : n / 16 < 16 ^ (k + 1) := by
        rw [Nat.div_lt_iff_lt_mul (by decide), ← Nat.pow_succ]
        exact h
      have hrest := ih (n / 16) hlt (hexChars.getD (n % 16) '0' :: s) (Nat.shiftRight_eq_div_pow _ 4)
        (Nat.and_two_pow_sub_one_eq_mod _ 4)
      rw [List.length_cons] at hrest
      rw [if_pos (Nat.pos_of_ne_zero hz), ← hrest]
      congr 3
      omega

theorem toLower_hexChars (n : Nat) : (hexChars.getD (n % 16) '0').toLower = hexChar (n % 16) := by
  have h : ∀ m : Fin 16, (hexChars.getD m '0').toLower = hexChar m := by decide
  exact h ⟨n % 16, Nat.mod_lt n (by decide)⟩

theorem sha_word (num : Word) : (hex num 8).map Char.toLower = toHex (highFirst num) := by
  have hn : num.toNat < 16 ^ (7 + 1) := num.isLt
  have hpad := hexLoop_eq 7 num.toNat hn []
  have hhex : hex num 8 = nibbles 8 num.toNat [] := hpad
  rw [hhex, highFirst]
  simp only [nibbles, List.map_cons, List.map_nil, toHex_cons, toLower_hexChars, Nat.div_div_eq_div_mul]
  rw [toNat_lowByte num, toNat_byte num (by decide), toNat_byte num (by decide), toNat_highByte]
  have hlt : num.toNat < 4294967296 := num.isLt
  have h0 : toHex [] = [] := rfl
  rw [h0]
  simp only [List.cons_append, List.nil_append, List.cons.injEq, and_true]
  refine ⟨?_, ?_, ?_, ?_, ?_, ?_, ?_, ?_⟩ <;> congr 1 <;> omega

theorem shaHex_eq (a : List Word) : shaHex a = toHex (a.flatMap highFirst) := by
  rw [toHex_flatMap, shaHex, List.map_flatMap]
  exact congrArg (a.flatMap ·) (funext sha_word)

theorem Sha1.encode_eq (s : List Char) : Sha1.encode s = toHex (Sha1.make (ofString s)) := by
  rw [Sha1.encode, Sha1.make, shaHex_eq, Sha1.str2blks]

theorem Sha256.encode_eq {length : List Char → Nat} {s : List Char} (h : length s = (ofString s).length) :
    Sha256.encode length s = toHex (Sha256.make (ofString s)) := by
  rw [Sha256.encode, Sha256.make, shaHex_eq, h]
  rfl

/-- `Md5` and `Sha1` agree on strings and bytes; `Sha256` does where the length of the string is the number of its bytes. -/
theorem digests_agree (length : List Char → Nat) (s : List Char) :
    Md5.encode s = toHex (Md5.make (ofString s)) ∧ Sha1.encode s = toHex (Sha1.make (ofString s)) ∧
      (length s = (ofString s).length → Sha256.encode length s = toHex (Sha256.make (ofString s))) :=
  ⟨Md5.encode_eq s, Sha1.encode_eq s, Sha256.encode_eq⟩

/-- `é` is one unit of two bytes. -/
theorem sha256_differs : Sha256.encode List.length ['é'] ≠ toHex (Sha256.make (ofString ['é'])) := by
  decide +kernel

end EvilHaxe.Crypto.Digest
