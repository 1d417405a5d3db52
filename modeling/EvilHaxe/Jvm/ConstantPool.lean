/-
The constant pool of a class file: `jvmConstantPool.ml`, with the constants of `jvmGlobals.ml`. A string is the list of
its characters, and an output is the list of its bytes.
-/
import EvilHaxe.Lib.BigEndian
import Mathlib.Data.List.Basic

namespace EvilHaxe.Jvm

open BigEndian

/-- `A` and `B` are the floats of single and of double precision, told apart as the pool tells them apart. -/
inductive JvmConstant (A B : Type) where
  | constUtf8 (s : List Char)
  | constInt (i : BitVec 32)
  | constFloat (f : A)
  | constLong (i : BitVec 64)
  | constDouble (d : B)
  | constClass (offset : Int)
  | constString (offset : Int)
  | constFieldref (offset1 offset2 : Int)
  | constMethodref (offset1 offset2 : Int)
  | constInterfaceMethodref (offset1 offset2 : Int)
  | constNameAndType (offset1 offset2 : Int)
  | constMethodHandle (i offset : Int)
  | constMethodType (offset : Int)
  | constInvokeDynamic (offset1 offset2 : Int)
  deriving DecidableEq

/-! ## Output -/

def writeByte (n : Int) : List Nat := [lowByte n]

/-- `BigEndian.write_ui16`; `none` is the exception `Overflow`, here and below. -/
def writeUi16 (n : Int) : Option (List Nat) :=
  if n < 0 ∨ n > 0xFFFF then none else some [lowByte (n >>> (8 : Nat)), lowByte n]

def writeRealI32 (i : BitVec 32) : List Nat :=
  let n := i.toInt
  [lowByte (n >>> (24 : Nat)), lowByte (n >>> (16 : Nat)), lowByte (n >>> (8 : Nat)), lowByte n]

def utf8jvmChar (code : Nat) : List Nat :=
  if code > 0 ∧ code ≤ 0x7F then writeByte code
  else if code ≤ 0x7FF then
    writeByte ↑(0xC0 ||| (code >>> 6)) ++
    writeByte ↑(0x80 ||| (code &&& 0x3F))
  else if code ≤ 0xFFFF then
    writeByte ↑(0xE0 ||| (code >>> 12)) ++
    writeByte ↑(0x80 ||| ((code >>> 6) &&& 0x3F)) ++
    writeByte ↑(0x80 ||| (code &&& 0x3F))
  else
    writeByte 0xED ++
    writeByte ↑(0xA0 ||| ((code >>> 16) - 1)) ++
    writeByte ↑(0x80 ||| ((code >>> 10) &&& 0x3F)) ++
    writeByte 0xED ++
    writeByte ↑(0xB0 ||| ((code >>> 6) &&& 0x0F)) ++
    writeByte ↑(0x80 ||| (code &&& 0x3F))

def utf8jvm (input : List Char) : List Nat := input.flatMap fun c => utf8jvmChar c.toNat

/-- What the floats of the compiler give to the writer. -/
structure FloatBits (A B : Type) where
  isNan : A → Bool
  isInfinite : A → Bool
  positive : A → Bool
  bitsOfFloat : A → BitVec 32
  bitsOfDouble : B → BitVec 64

variable {A B : Type}

def FloatBits.float (F : FloatBits A B) (f : A) : BitVec 32 :=
  if F.isNan f then 0x7f800001#32
  else if F.isInfinite f then if F.positive f then 0x7f800000#32 else 0xff800000#32
  else F.bitsOfFloat f

/-- The low word comes first. -/
def writeI64 (i : BitVec 64) : List Nat :=
  writeRealI32 (i.setWidth 32) ++ writeRealI32 ((i >>> 32).setWidth 32)

/-- The words of `BigEndian.write_double`, the high one first. -/
def writeDouble (d : BitVec 64) : List Nat :=
  writeRealI32 ((d >>> 32).setWidth 32) ++ writeRealI32 (d.setWidth 32)

def writeOffset (tag : Int) (offset : Int) : Option (List Nat) := do
  return writeByte tag ++ (← writeUi16 offset)

def writeOffsets (tag : Int) (offset1 offset2 : Int) : Option (List Nat) := do
  return writeByte tag ++ (← writeUi16 offset1) ++ (← writeUi16 offset2)

def writeConstant (F : FloatBits A B) : JvmConstant A B → Option (List Nat)
  | .constUtf8 s => do
    let b := utf8jvm s
    return writeByte 1 ++ (← writeUi16 b.length) ++ b
  | .constInt i => return writeByte 3 ++ writeRealI32 i
  | .constFloat f => return writeByte 4 ++ writeRealI32 (F.float f)
  | .constLong i => return writeByte 5 ++ writeI64 i
  | .constDouble d => return writeByte 6 ++ writeDouble (F.bitsOfDouble d)
  | .constClass offset => writeOffset 7 offset
  | .constString offset => writeOffset 8 offset
  | .constFieldref offset1 offset2 => writeOffsets 9 offset1 offset2
  | .constMethodref offset1 offset2 => writeOffsets 10 offset1 offset2
  | .constInterfaceMethodref offset1 offset2 => writeOffsets 11 offset1 offset2
  | .constNameAndType offset1 offset2 => writeOffsets 12 offset1 offset2
  | .constMethodHandle i offset => return writeByte 15 ++ writeByte i ++ (← writeUi16 offset)
  | .constMethodType offset => writeOffset 16 offset
  | .constInvokeDynamic offset1 offset2 => writeOffsets 18 offset1 offset2

/-! ## The pool -/

/-- `lut` and `luti` are hash tables, the last binding first. -/
structure ConstantPool (A B : Type) where
  pool : List (JvmConstant A B)
  lut : List (JvmConstant A B × Nat)
  luti : List (Nat × Nat)
  nextIndex : Nat
  closed : Bool

namespace ConstantPool

def create : ConstantPool A B := { pool := [], lut := [], luti := [], nextIndex := 1, closed := false }

/-- `none` is the failed assertion that the pool is open. -/
def add [DecidableEq A] [DecidableEq B] (p : ConstantPool A B) (const : JvmConstant A B) :
    Option (Nat × ConstantPool A B) :=
  match p.lut.lookup const with
  | some i => some (i, p)
  | none =>
    if p.closed then none
    else
      let i := p.nextIndex
      let p :=
        { p with
          nextIndex := p.nextIndex + 1
          pool := p.pool ++ [const]
          lut := (const, i) :: p.lut
          luti := (i, p.pool.length) :: p.luti }
      match const with
      | .constDouble _ | .constLong _ => some (i, { p with nextIndex := p.nextIndex + 1 })
      | _ => some (i, p)

def get (p : ConstantPool A B) (i : Nat) : Option (JvmConstant A B) :=
  (p.luti.lookup i).bind fun k => p.pool[k]?

def writeConstants (F : FloatBits A B) : List (JvmConstant A B) → Option (List Nat)
  | [] => some []
  | const :: rest => do return (← writeConstant F const) ++ (← writeConstants F rest)

def write (F : FloatBits A B) (p : ConstantPool A B) : Option (List Nat) := do
  return (← writeUi16 p.nextIndex) ++ (← writeConstants F p.pool)

def close (F : FloatBits A B) (p : ConstantPool A B) : ConstantPool A B × Option (List Nat) :=
  ({ p with closed := true }, write F { p with closed := true })

/-- A sequence of calls of `add`, with the indices that they return. -/
def addAll [DecidableEq A] [DecidableEq B] (p : ConstantPool A B) :
    List (JvmConstant A B) → Option (List Nat × ConstantPool A B)
  | [] => some ([], p)
  | const :: rest => do
    let (i, p) ← p.add const
    let (is, p) ← p.addAll rest
    return (i :: is, p)

end ConstantPool

end EvilHaxe.Jvm
