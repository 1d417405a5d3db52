/-
The bytes of a constant read back. Every constant is read as it was added but for two kinds: a long comes back with its
words exchanged, and the kind of a method handle without what is above a byte.
-/
import EvilHaxe.Jvm.ClassFile

namespace EvilHaxe.Jvm

open BigEndian

variable {A B : Type}

/-! ## Strings -/

theorem or_eq_add {a i b : Nat} (h : b < 2 ^ i) : a * 2 ^ i ||| b = a * 2 ^ i + b := by
  have := Nat.shiftLeft_add_eq_or_of_lt h a
  rw [Nat.shiftLeft_eq] at this
  exact this.symm

theorem and_mask (a i : Nat) : a &&& (2 ^ i - 1) = a % 2 ^ i := Nat.and_two_pow_sub_one_eq_mod a i

theorem lowByte_nat {n : Nat} (h : n < 256) : lowByte n = n := by
  unfold lowByte
  omega

/-- The code units of a character. -/
def utf16 (code : Nat) : List Nat :=
  if code ≤ 0xFFFF then [code] else [0xD800 + (code - 0x10000) / 0x400, 0xDC00 + (code - 0x10000) % 0x400]

/-- The bytes of a character in arithmetic. -/
theorem utf8jvmChar_eq {code : Nat} (h : code < 0x110000) :
    utf8jvmChar code =
      if code > 0 ∧ code ≤ 0x7F then [code]
      else if code ≤ 0x7FF then [0xC0 + code / 0x40, 0x80 + code % 0x40]
      else if code ≤ 0xFFFF then [0xE0 + code / 0x1000, 0x80 + code / 0x40 % 0x40, 0x80 + code % 0x40]
      else
        [0xED, 0xA0 + (code / 0x10000 - 1), 0x80 + code / 0x400 % 0x40, 0xED, 0xB0 + code / 0x40 % 0x10,
          0x80 + code % 0x40] := by
  have tail : ∀ n, 0x80 ||| (n &&& 0x3F) = 0x80 + n % 0x40 := by
    intro n
    rw [show (0x3F : Nat) = 2 ^ 6 - 1 from rfl, and_mask]
    exact or_eq_add (a := 2) (i := 6) (Nat.mod_lt _ (by decide))
  unfold utf8jvmChar writeByte
  simp only [tail, Nat.shiftRight_eq_div_pow, Nat.reducePow]
  split_ifs with h1 h2 h3
  · rw [lowByte_nat (by omega)]
  · have e : 0xC0 ||| code / 64 = 0xC0 + code / 64 := or_eq_add (a := 3) (i := 6) (by omega)
    rw [e, lowByte_nat (by omega), lowByte_nat (by omega)]
    rfl
  · have e : 0xE0 ||| code / 4096 = 0xE0 + code / 4096 := or_eq_add (a := 14) (i := 4) (by omega)
    rw [e, lowByte_nat (by omega), lowByte_nat (by omega), lowByte_nat (by omega)]
    rfl
  · have e1 : 0xA0 ||| (code / 65536 - 1) = 0xA0 + (code / 65536 - 1) := or_eq_add (a := 10) (i := 4) (by omega)
    have e2 : 0xB0 ||| (code / 64 &&& 0x0F) = 0xB0 + code / 64 % 0x10 := by
      rw [show (0x0F : Nat) = 2 ^ 4 - 1 from rfl, and_mask]
      exact or_eq_add (a := 11) (i := 4) (Nat.mod_lt _ (by decide))
    rw [e1, e2, lowByte_nat (by omega), lowByte_nat (by omega), lowByte_nat (by omega), lowByte_nat (by omega)]
    rfl

theorem decodeUnits_one {x : Nat} (h : 0x01 ≤ x ∧ x ≤ 0x7F) (rest : List Nat) :
    decodeUnits (x :: rest) = (decodeUnits rest).map (x :: ·) := by
  rw [decodeUnits.eq_def]
  exact if_pos h

theorem decodeUnits_two {a b : Nat} (ha : a < 0x20) (hb : b < 0x40) (rest : List Nat) :
    decodeUnits ((0xC0 + a) :: (0x80 + b) :: rest) = (decodeUnits rest).map ((a * 0x40 + b) :: ·) := by
  rw [decodeUnits.eq_def]
  dsimp only
  have ht : IsTail (0x80 + b) := by unfold IsTail; omega
  have e : (0xC0 + a) % 0x20 * 0x40 + (0x80 + b) % 0x40 = a * 0x40 + b := by omega
  rw [if_neg (by omega), if_pos (by omega), if_pos ht, e]

theorem decodeUnits_three {a b c : Nat} (ha : a < 0x10) (hb : b < 0x40) (hc : c < 0x40) (rest : List Nat) :
    decodeUnits ((0xE0 + a) :: (0x80 + b) :: (0x80 + c) :: rest) =
      (decodeUnits rest).map ((a * 0x1000 + b * 0x40 + c) :: ·) := by
  rw [decodeUnits.eq_def]
  dsimp only
  have ht : IsTail (0x80 + b) ∧ IsTail (0x80 + c) := by unfold IsTail; omega
  have e : (0xE0 + a) % 0x10 * 0x1000 + (0x80 + b) % 0x40 * 0x40 + (0x80 + c) % 0x40 = a * 0x1000 + b * 0x40 + c := by
    omega
  rw [if_neg (by omega), if_neg (by omega), if_pos (by omega), if_pos ht, e]

/-- A character beyond the first plane is written as its two surrogates. -/
theorem decodeUnits_char {code : Nat} (h : code < 0x110000) (rest : List Nat) :
    decodeUnits (utf8jvmChar code ++ rest) = (decodeUnits rest).map (utf16 code ++ ·) := by
  rw [utf8jvmChar_eq h]
  unfold utf16
  split_ifs with h1 h2 h3 h4 h5
  · exact decodeUnits_one ⟨h1.1, h1.2⟩ rest
  · omega
  · have e := decodeUnits_two (a := code / 0x40) (b := code % 0x40) (by omega) (by omega) rest
    rw [show code / 0x40 * 0x40 + code % 0x40 = code by omega] at e
    exact e
  · omega
  · have e := decodeUnits_three (a := code / 0x1000) (b := code / 0x40 % 0x40) (c := code % 0x40) (by omega) (by omega)
      (by omega) rest
    rw [show code / 0x1000 * 0x1000 + code / 0x40 % 0x40 * 0x40 + code % 0x40 = code by omega] at e
    exact e
  · have e1 := decodeUnits_three (a := 0xD) (b := 0x20 + (code / 0x10000 - 1)) (c := code / 0x400 % 0x40) (by omega)
      (by omega) (by omega) (0xED :: (0xB0 + code / 0x40 % 0x10) :: (0x80 + code % 0x40) :: rest)
    have e2 := decodeUnits_three (a := 0xD) (b := 0x30 + code / 0x40 % 0x10) (c := code % 0x40) (by omega) (by omega)
      (by omega) rest
    rw [show 0x80 + (0x30 + code / 0x40 % 0x10) = 0xB0 + code / 0x40 % 0x10 by omega] at e2
    rw [show 0x80 + (0x20 + (code / 0x10000 - 1)) = 0xA0 + (code / 0x10000 - 1) by omega, e2] at e1
    rw [show 0xD * 0x1000 + (0x20 + (code / 0x10000 - 1)) * 0x40 + code / 0x400 % 0x40 =
        0xD800 + (code - 0x10000) / 0x400 by omega,
      show 0xD * 0x1000 + (0x30 + code / 0x40 % 0x10) * 0x40 + code % 0x40 = 0xDC00 + (code - 0x10000) % 0x400 by omega,
      Option.map_map] at e1
    exact e1

theorem decodeChars_char (c : Char) (rest : List Nat) :
    decodeChars (utf16 c.toNat ++ rest) = (decodeChars rest).map (c :: ·) := by
  have hvalid : c.toNat < 0xD800 ∨ 0xDFFF < c.toNat ∧ c.toNat < 0x110000 := c.valid
  unfold utf16
  split_ifs with h
  · rw [List.singleton_append, decodeChars.eq_def]
    dsimp only
    rw [if_neg (by omega), if_neg (by omega), Char.ofNat_toNat]
  · rw [List.cons_append, List.singleton_append, decodeChars.eq_def]
    dsimp only
    rw [if_pos (by omega), if_pos (by omega)]
    rw [show 0x10000 + (0xD800 + (c.toNat - 0x10000) / 0x400 - 0xD800) * 0x400 +
        (0xDC00 + (c.toNat - 0x10000) % 0x400 - 0xDC00) = c.toNat by omega, Char.ofNat_toNat]

/-- The modified UTF-8 of a string is read as the string. -/
theorem decode_utf8jvm (s : List Char) :
    decodeUnits (utf8jvm s) = some (s.flatMap fun c => utf16 c.toNat) ∧
      decodeChars (s.flatMap fun c => utf16 c.toNat) = some s := by
  induction s with
  | nil => exact ⟨rfl, rfl⟩
  | cons c s ih =>
    have hvalid : c.toNat < 0xD800 ∨ 0xDFFF < c.toNat ∧ c.toNat < 0x110000 := c.valid
    have hc : c.toNat < 0x110000 := by omega
    constructor
    · rw [utf8jvm, List.flatMap_cons, decodeUnits_char hc]
      show Option.map _ (decodeUnits (utf8jvm s)) = _
      rw [ih.1]
      rfl
    · rw [List.flatMap_cons, decodeChars_char, ih.2]
      rfl

/-! ## Words and offsets -/

theorem writeRealI32_eq (i : BitVec 32) : writeRealI32 i = encode 4 i.toInt := by
  simp [writeRealI32, encode]

theorem readWord_write (i : BitVec 32) (rest : List Nat) : readWord (writeRealI32 i ++ rest) = some (i, rest) := by
  have h : ((i.toInt % 256 ^ 4).toNat) = i.toNat := by
    have := i.isLt
    rw [BitVec.toInt_eq_toNat_bmod, Int.bmod_def]
    split <;> omega
  rw [readWord, writeRealI32_eq, readUnsigned_encode, h]
  simp

theorem readWords_write (high low : BitVec 32) (rest : List Nat) :
    readWords (writeRealI32 high ++ writeRealI32 low ++ rest) = some (high ++ low, rest) := by
  rw [readWords, List.append_assoc, readWord_write]
  show Option.bind (readWord (writeRealI32 low ++ rest)) (fun r => some (high ++ r.1, r.2)) = _
  rw [readWord_write]
  rfl

def InUi16 (n : Int) : Prop := 0 ≤ n ∧ n ≤ 0xFFFF

theorem writeUi16_eq {n : Int} (h : InUi16 n) : writeUi16 n = some (encode 2 n) := by
  obtain ⟨h0, h1⟩ := h
  unfold writeUi16
  rw [if_neg (by omega)]
  simp [encode]

theorem writeUi16_some {n : Int} {b : List Nat} (h : writeUi16 n = some b) : InUi16 n ∧ b = encode 2 n := by
  have hn : InUi16 n := by
    unfold writeUi16 at h
    unfold InUi16
    split at h
    · cases h
    · omega
  rw [writeUi16_eq hn] at h
  exact ⟨hn, (Option.some.inj h).symm⟩

theorem readUi16_write {n : Int} (h : InUi16 n) (rest : List Nat) :
    readUnsigned 2 (encode 2 n ++ rest) = some (n.toNat, rest) := by
  obtain ⟨h0, h1⟩ := h
  rw [readUnsigned_encode]
  congr 2
  omega

/-! ## Constants -/

/-- The constant as the class file has it. -/
def entry (F : FloatBits A B) : JvmConstant A B → Entry
  | .constUtf8 s => .constUtf8 s
  | .constInt i => .constInt i
  | .constFloat f => .constFloat (F.float f)
  | .constLong i => .constLong i
  | .constDouble d => .constDouble (F.bitsOfDouble d)
  | .constClass offset => .constClass offset
  | .constString offset => .constString offset
  | .constFieldref offset1 offset2 => .constFieldref offset1 offset2
  | .constMethodref offset1 offset2 => .constMethodref offset1 offset2
  | .constInterfaceMethodref offset1 offset2 => .constInterfaceMethodref offset1 offset2
  | .constNameAndType offset1 offset2 => .constNameAndType offset1 offset2
  | .constMethodHandle i offset => .constMethodHandle i offset
  | .constMethodType offset => .constMethodType offset
  | .constInvokeDynamic offset1 offset2 => .constInvokeDynamic offset1 offset2

def swapWords (i : BitVec 64) : BitVec 64 := i.setWidth 32 ++ (i >>> 32).setWidth 32

/-- The constant that is read where `c` was written. -/
def written (F : FloatBits A B) (c : JvmConstant A B) : Entry :=
  match c with
  | .constLong i => .constLong (swapWords i)
  | .constMethodHandle i offset => .constMethodHandle (lowByte i) offset
  | c => entry F c

/-- The constants that a class file has room for. -/
def Fits : JvmConstant A B → Prop
  | .constUtf8 s => (utf8jvm s).length ≤ 0xFFFF
  | .constInt _ | .constFloat _ | .constLong _ | .constDouble _ => True
  | .constClass offset | .constString offset | .constMethodHandle _ offset | .constMethodType offset => InUi16 offset
  | .constFieldref offset1 offset2 | .constMethodref offset1 offset2 | .constInterfaceMethodref offset1 offset2
  | .constNameAndType offset1 offset2 | .constInvokeDynamic offset1 offset2 => InUi16 offset1 ∧ InUi16 offset2

/-- The two words of a long are the same, and the kind of a method handle is a byte. -/
def Survives : JvmConstant A B → Prop
  | .constLong i => i.setWidth 32 = (i >>> 32).setWidth 32
  | .constMethodHandle i _ => 0 ≤ i ∧ i ≤ 0xFF
  | _ => True

theorem width_written (F : FloatBits A B) (c : JvmConstant A B) : width (written F c) = width c := by
  cases c <;> rfl

theorem words_swap (i : BitVec 64) : i = (i >>> 32).setWidth 32 ++ i.setWidth 32 := by
  apply BitVec.eq_of_toNat_eq
  have := i.isLt
  simp only [BitVec.toNat_append, BitVec.toNat_setWidth, BitVec.toNat_ushiftRight, Nat.shiftRight_eq_div_pow]
  rw [← Nat.shiftLeft_add_eq_or_of_lt (by omega), Nat.shiftLeft_eq]
  omega

theorem swapWords_eq (i : BitVec 64) : swapWords i = i ↔ i.setWidth 32 = (i >>> 32).setWidth 32 := by
  constructor
  · intro h
    have hsplit := words_swap i
    rw [← h] at hsplit
    unfold swapWords at hsplit
    have hhigh := congrArg (fun x : BitVec 64 => (x >>> 32).setWidth 32) h
    have hlow := congrArg (fun x : BitVec 64 => x.setWidth 32) h
    simp only [swapWords] at hhigh hlow
    rw [← hlow]
    apply BitVec.eq_of_toNat_eq
    simp only [BitVec.toNat_append, BitVec.toNat_setWidth, BitVec.toNat_ushiftRight, Nat.shiftRight_eq_div_pow]
    have := i.isLt
    rw [← Nat.shiftLeft_add_eq_or_of_lt (by omega), Nat.shiftLeft_eq]
    omega
  · intro h
    unfold swapWords
    conv_rhs => rw [words_swap i, ← h]
    rw [← h]

theorem written_entry (F : FloatBits A B) (c : JvmConstant A B) : written F c = entry F c ↔ Survives c := by
  cases c <;> try exact iff_of_true rfl trivial
  case constLong i =>
    show JvmConstant.constLong (swapWords i) = .constLong i ↔ _
    rw [JvmConstant.constLong.injEq]
    exact swapWords_eq i
  case constMethodHandle i offset =>
    show JvmConstant.constMethodHandle (lowByte i) offset = .constMethodHandle i offset ↔ 0 ≤ i ∧ i ≤ 0xFF
    simp only [JvmConstant.constMethodHandle.injEq, and_true]
    unfold lowByte
    omega

theorem writeOffset_some {tag offset : Int} {b : List Nat} (h : writeOffset tag offset = some b) :
    InUi16 offset ∧ b = lowByte tag :: encode 2 offset := by
  unfold writeOffset at h
  obtain ⟨b', hb, h⟩ := Option.bind_eq_some_iff.mp h
  obtain ⟨hn, rfl⟩ := writeUi16_some hb
  exact ⟨hn, (Option.some.inj h).symm⟩

theorem writeOffsets_some {tag offset1 offset2 : Int} {b : List Nat} (h : writeOffsets tag offset1 offset2 = some b) :
    (InUi16 offset1 ∧ InUi16 offset2) ∧ b = lowByte tag :: encode 2 offset1 ++ encode 2 offset2 := by
  unfold writeOffsets at h
  obtain ⟨b1, hb1, h⟩ := Option.bind_eq_some_iff.mp h
  obtain ⟨b2, hb2, h⟩ := Option.bind_eq_some_iff.mp h
  obtain ⟨hn1, rfl⟩ := writeUi16_some hb1
  obtain ⟨hn2, rfl⟩ := writeUi16_some hb2
  exact ⟨⟨hn1, hn2⟩, (Option.some.inj h).symm⟩

theorem readIndex_write {const : Int → Entry} {offset : Int} (h : InUi16 offset) (rest : List Nat) :
    readIndex const (encode 2 offset ++ rest) = some (const offset, rest) := by
  rw [readIndex, readUi16_write h]
  show some (const offset.toNat, rest) = _
  rw [Int.toNat_of_nonneg h.1]

theorem readIndices_write {const : Int → Int → Entry} {offset1 offset2 : Int} (h : InUi16 offset1 ∧ InUi16 offset2)
    (rest : List Nat) :
    readIndices const (encode 2 offset1 ++ encode 2 offset2 ++ rest) = some (const offset1 offset2, rest) := by
  rw [readIndices, List.append_assoc, readUi16_write h.1]
  show Option.bind (readUnsigned 2 (encode 2 offset2 ++ rest)) (fun r => some (const offset1.toNat r.1, r.2)) = _
  rw [readUi16_write h.2]
  show some (const offset1.toNat offset2.toNat, rest) = _
  rw [Int.toNat_of_nonneg h.1.1, Int.toNat_of_nonneg h.2.1]

theorem readString_write {s : List Char} (h : InUi16 (utf8jvm s).length) (rest : List Nat) :
    readString (encode 2 (utf8jvm s).length ++ (utf8jvm s ++ rest)) = some (.constUtf8 s, rest) := by
  rw [readString, readUi16_write h]
  show (if ((utf8jvm s).length : Int).toNat ≤ (utf8jvm s ++ rest).length then _ else _) = _
  rw [Int.toNat_natCast, if_pos (by rw [List.length_append]; omega), List.take_left' rfl, List.drop_left' rfl,
    (decode_utf8jvm s).1]
  show (do let s ← decodeChars (s.flatMap fun c : Char => utf16 c.toNat); return (JvmConstant.constUtf8 s, rest)) = _
  rw [(decode_utf8jvm s).2]
  rfl

theorem readIndex_offset {tag offset : Int} {b : List Nat} {const : Int → Entry} (h : writeOffset tag offset = some b)
    (rest : List Nat) : ∃ b', b = lowByte tag :: b' ∧ readIndex const (b' ++ rest) = some (const offset, rest) := by
  obtain ⟨hn, rfl⟩ := writeOffset_some h
  exact ⟨_, rfl, readIndex_write hn rest⟩

theorem readIndices_offsets {tag offset1 offset2 : Int} {b : List Nat} {const : Int → Int → Entry}
    (h : writeOffsets tag offset1 offset2 = some b) (rest : List Nat) :
    ∃ b', b = lowByte tag :: b' ∧ readIndices const (b' ++ rest) = some (const offset1 offset2, rest) := by
  obtain ⟨hn, rfl⟩ := writeOffsets_some h
  exact ⟨_, rfl, readIndices_write hn rest⟩

/-- What is written of a constant is read as `written`, whatever follows. -/
theorem readConstant_write (F : FloatBits A B) {c : JvmConstant A B} {b : List Nat} (h : writeConstant F c = some b)
    (rest : List Nat) : readConstant (b ++ rest) = some (written F c, rest) := by
  cases c
  case constUtf8 s =>
    obtain ⟨b', hb, h⟩ := Option.bind_eq_some_iff.mp h
    obtain ⟨hn, rfl⟩ := writeUi16_some hb
    obtain rfl := Option.some.inj h
    rw [List.append_assoc, List.append_assoc]
    exact readString_write hn rest
  case constInt i =>
    obtain rfl := Option.some.inj h
    have e := congrArg (Option.map fun r => ((JvmConstant.constInt r.1 : Entry), r.2)) (readWord_write i rest)
    exact e
  case constFloat f =>
    obtain rfl := Option.some.inj h
    have e := congrArg (Option.map fun r => ((JvmConstant.constFloat r.1 : Entry), r.2))
      (readWord_write (F.float f) rest)
    exact e
  case constLong i =>
    obtain rfl := Option.some.inj h
    have e := congrArg (Option.map fun r => ((JvmConstant.constLong r.1 : Entry), r.2))
      (readWords_write (i.setWidth 32) ((i >>> 32).setWidth 32) rest)
    exact e
  case constDouble d =>
    obtain rfl := Option.some.inj h
    have e := congrArg (Option.map fun r => ((JvmConstant.constDouble r.1 : Entry), r.2))
      (readWords_write ((F.bitsOfDouble d >>> 32).setWidth 32) ((F.bitsOfDouble d).setWidth 32) rest)
    rw [← words_swap] at e
    exact e
  case constMethodHandle i offset =>
    obtain ⟨b', hb, h⟩ := Option.bind_eq_some_iff.mp h
    obtain ⟨hn, rfl⟩ := writeUi16_some hb
    obtain rfl := Option.some.inj h
    exact readIndex_write hn rest
  case constClass | constString | constMethodType =>
    obtain ⟨b', rfl, hread⟩ := readIndex_offset h rest
    exact hread
  case constFieldref | constMethodref | constInterfaceMethodref | constNameAndType | constInvokeDynamic =>
    obtain ⟨b', rfl, hread⟩ := readIndices_offsets h rest
    exact hread

theorem writeOffset_isSome {tag offset : Int} : (writeOffset tag offset).isSome ↔ InUi16 offset := by
  constructor
  · intro h
    obtain ⟨b, hb⟩ := Option.isSome_iff_exists.mp h
    exact (writeOffset_some hb).1
  · intro h
    rw [writeOffset, writeUi16_eq h]
    rfl

theorem writeOffsets_isSome {tag offset1 offset2 : Int} :
    (writeOffsets tag offset1 offset2).isSome ↔ InUi16 offset1 ∧ InUi16 offset2 := by
  constructor
  · intro h
    obtain ⟨b, hb⟩ := Option.isSome_iff_exists.mp h
    exact (writeOffsets_some hb).1
  · intro h
    rw [writeOffsets, writeUi16_eq h.1, writeUi16_eq h.2]
    rfl

theorem writeConstant_isSome (F : FloatBits A B) (c : JvmConstant A B) : (writeConstant F c).isSome ↔ Fits c := by
  cases c
  case constUtf8 s =>
    have hfits : Fits (A := A) (B := B) (.constUtf8 s) ↔ InUi16 (utf8jvm s).length := by
      show (utf8jvm s).length ≤ 0xFFFF ↔ _
      unfold InUi16
      omega
    rw [hfits]
    constructor
    · intro h
      obtain ⟨b, hb⟩ := Option.isSome_iff_exists.mp h
      obtain ⟨b', hb', -⟩ := Option.bind_eq_some_iff.mp hb
      exact (writeUi16_some hb').1
    · intro h
      show Option.isSome (do return writeByte 1 ++ (← writeUi16 (utf8jvm s).length) ++ utf8jvm s) = true
      rw [writeUi16_eq h]
      rfl
  case constMethodHandle i offset =>
    constructor
    · intro h
      obtain ⟨b, hb⟩ := Option.isSome_iff_exists.mp h
      obtain ⟨b', hb', -⟩ := Option.bind_eq_some_iff.mp hb
      exact (writeUi16_some hb').1
    · intro h
      show Option.isSome (do return writeByte 15 ++ writeByte i ++ (← writeUi16 offset)) = true
      rw [writeUi16_eq h]
      rfl
  case constInt | constFloat | constLong | constDouble => exact iff_of_true rfl trivial
  case constClass | constString | constMethodType => exact writeOffset_isSome
  case constFieldref | constMethodref | constInterfaceMethodref | constNameAndType | constInvokeDynamic =>
    exact writeOffsets_isSome

end EvilHaxe.Jvm
