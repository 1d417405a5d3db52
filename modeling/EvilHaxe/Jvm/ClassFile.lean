/-
The constant pool as the class-file format of the Java Virtual Machine reads it: the structures of its section 4.4, and
the strings of 4.4.7, whose characters are those of UTF-16.
-/
import EvilHaxe.Jvm.ConstantPool

namespace EvilHaxe.Jvm

open BigEndian

/-! ## Strings -/

def IsTail (y : Nat) : Prop := 0x80 ≤ y ∧ y < 0xC0

instance (y : Nat) : Decidable (IsTail y) := inferInstanceAs (Decidable (_ ∧ _))

/-- The code units of a string, each in one, two or three bytes. -/
def decodeUnits : List Nat → Option (List Nat)
  | [] => some []
  | x :: rest =>
    if 0x01 ≤ x ∧ x ≤ 0x7F then (decodeUnits rest).map (x :: ·)
    else if 0xC0 ≤ x ∧ x < 0xE0 then
      match rest with
      | y :: rest => if IsTail y then (decodeUnits rest).map ((x % 0x20 * 0x40 + y % 0x40) :: ·) else none
      | _ => none
    else if 0xE0 ≤ x ∧ x < 0xF0 then
      match rest with
      | y :: z :: rest =>
        if IsTail y ∧ IsTail z then
          (decodeUnits rest).map ((x % 0x10 * 0x1000 + y % 0x40 * 0x40 + z % 0x40) :: ·)
        else none
      | _ => none
    else none

/-- The characters of UTF-16 code units. -/
def decodeChars : List Nat → Option (List Char)
  | [] => some []
  | u :: rest =>
    if 0xD800 ≤ u ∧ u < 0xDC00 then
      match rest with
      | v :: rest =>
        if 0xDC00 ≤ v ∧ v < 0xE000 then
          (decodeChars rest).map (Char.ofNat (0x10000 + (u - 0xD800) * 0x400 + (v - 0xDC00)) :: ·)
        else none
      | [] => none
    else if 0xDC00 ≤ u ∧ u < 0xE000 then none
    else (decodeChars rest).map (Char.ofNat u :: ·)

/-! ## Constants -/

/-- A constant of the pool. A float is its bits. -/
abbrev Entry := JvmConstant (BitVec 32) (BitVec 64)

def readWord (bytes : List Nat) : Option (BitVec 32 × List Nat) := do
  let (n, rest) ← readUnsigned 4 bytes
  return (BitVec.ofNat 32 n, rest)

/-- `high_bytes` and `low_bytes`. -/
def readWords (bytes : List Nat) : Option (BitVec 64 × List Nat) := do
  let (high, rest) ← readWord bytes
  let (low, rest) ← readWord rest
  return (high ++ low, rest)

def readIndex (const : Int → Entry) (bytes : List Nat) : Option (Entry × List Nat) := do
  let (n, rest) ← readUnsigned 2 bytes
  return (const n, rest)

def readIndices (const : Int → Int → Entry) (bytes : List Nat) : Option (Entry × List Nat) := do
  let (n, rest) ← readUnsigned 2 bytes
  let (m, rest) ← readUnsigned 2 rest
  return (const n m, rest)

def readString (bytes : List Nat) : Option (Entry × List Nat) := do
  let (length, rest) ← readUnsigned 2 bytes
  if length ≤ rest.length then
    let units ← decodeUnits (rest.take length)
    let s ← decodeChars units
    return (.constUtf8 s, rest.drop length)
  else none

def readConstant : List Nat → Option (Entry × List Nat)
  | 1 :: rest => readString rest
  | 3 :: rest => (readWord rest).map fun (i, rest) => (.constInt i, rest)
  | 4 :: rest => (readWord rest).map fun (i, rest) => (.constFloat i, rest)
  | 5 :: rest => (readWords rest).map fun (i, rest) => (.constLong i, rest)
  | 6 :: rest => (readWords rest).map fun (i, rest) => (.constDouble i, rest)
  | 7 :: rest => readIndex .constClass rest
  | 8 :: rest => readIndex .constString rest
  | 9 :: rest => readIndices .constFieldref rest
  | 10 :: rest => readIndices .constMethodref rest
  | 11 :: rest => readIndices .constInterfaceMethodref rest
  | 12 :: rest => readIndices .constNameAndType rest
  | 15 :: kind :: rest => readIndex (.constMethodHandle kind) rest
  | 16 :: rest => readIndex .constMethodType rest
  | 18 :: rest => readIndices .constInvokeDynamic rest
  | _ => none

/-! ## The pool -/

variable {A B : Type}

/-- The number of indices that a constant takes. -/
def width : JvmConstant A B → Nat
  | .constLong _ | .constDouble _ => 2
  | _ => 1

/-- The constants for `slots` indices from `index` on. -/
def readEntries : Nat → Nat → List Nat → Option (List (Nat × Entry) × List Nat)
  | 0, _, bytes => some ([], bytes)
  | slots + 1, index, bytes => do
    let (const, rest) ← readConstant bytes
    let (entries, rest) ←
      if width const = 2 then
        match slots with
        | 0 => none
        | slots + 1 => readEntries slots (index + 2) rest
      else readEntries slots (index + 1) rest
    return ((index, const) :: entries, rest)

/-- The table behind `constant_pool_count`, which is the number of indices and one. -/
def readPool (bytes : List Nat) : Option (List (Nat × Entry)) := do
  let (count, rest) ← readUnsigned 2 bytes
  let (entries, rest) ← readEntries (count - 1) 1 rest
  if rest = [] then return entries else none

end EvilHaxe.Jvm
