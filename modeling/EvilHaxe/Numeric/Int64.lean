/-
`haxe.Int64`: 64-bit integers as pairs of 32-bit words, with the 32-bit operations of `haxe.Int32`, which wrap around.
-/
import Mathlib.Data.List.Basic

namespace EvilHaxe.Numeric

/-- `haxe.Int32`. `<<<` and `>>>` are those of the language, and `sshr` is `>>`. -/
abbrev Int32 := BitVec 32

namespace Int32

def isNeg (a : Int32) : Bool := a.slt 0

def sshr (a b : Int32) : Int32 := a.sshiftRight b.toNat

/-- `Int32.ucompare` -/
def ucompare (a b : Int32) : Int32 :=
  if isNeg a then if isNeg b then ~~~b - ~~~a else 1
  else if isNeg b then -1 else a - b

end Int32

structure Int64 where
  high : Int32
  low : Int32
deriving DecidableEq

namespace Int64

def make (high low : Int32) : Int64 := ⟨high, low⟩

def copy (x : Int64) : Int64 := make x.high x.low

def ofInt (x : Int32) : Int64 := make (Int32.sshr x 31) x

def isNeg (x : Int64) : Bool := Int32.isNeg x.high

/-! ## Comparisons -/

def compare (a b : Int64) : Int32 :=
  let v := a.high - b.high
  let v := if v ≠ 0 then v else Int32.ucompare a.low b.low
  if Int32.isNeg a.high then if Int32.isNeg b.high then v else -1
  else if !Int32.isNeg b.high then v else 1

def ucompare (a b : Int64) : Int32 :=
  let v := Int32.ucompare a.high b.high
  if v ≠ 0 then v else Int32.ucompare a.low b.low

def eq (a b : Int64) : Bool := a.high == b.high && a.low == b.low
def neq (a b : Int64) : Bool := a.high != b.high || a.low != b.low
def lt (a b : Int64) : Bool := (compare a b).slt 0
def lte (a b : Int64) : Bool := (compare a b).sle 0
def gt (a b : Int64) : Bool := (0 : Int32).slt (compare a b)
def gte (a b : Int64) : Bool := (0 : Int32).sle (compare a b)

/-! ## Arithmetic -/

def neg (x : Int64) : Int64 :=
  let high := ~~~x.high
  let low := -x.low
  let high := if low = 0 then high + 1 else high
  make high low

def add (a b : Int64) : Int64 :=
  let high := a.high + b.high
  let low := a.low + b.low
  let high := if (Int32.ucompare low a.low).slt 0 then high + 1 else high
  make high low

def sub (a b : Int64) : Int64 :=
  let high := a.high - b.high
  let low := a.low - b.low
  let high := if (Int32.ucompare a.low b.low).slt 0 then high - 1 else high
  make high low

def mul (a b : Int64) : Int64 :=
  let mask : Int32 := 0xFFFF
  let al := a.low &&& mask
  let ah := a.low >>> 16
  let bl := b.low &&& mask
  let bh := b.low >>> 16
  let p00 := al * bl
  let p10 := ah * bl
  let p01 := al * bh
  let p11 := ah * bh
  let low := p00
  let high := p11 + (p01 >>> 16) + (p10 >>> 16)
  let p01 := p01 <<< 16
  let low := low + p01
  let high := if (Int32.ucompare low p01).slt 0 then high + 1 else high
  let p10 := p10 <<< 16
  let low := low + p10
  let high := if (Int32.ucompare low p10).slt 0 then high + 1 else high
  let high := high + (a.low * b.high + a.high * b.low)
  make high low

/-! ## Shifts and bits -/

def or (a b : Int64) : Int64 := make (a.high ||| b.high) (a.low ||| b.low)

def shl (a : Int64) (b : Int32) : Int64 :=
  let b := b &&& 63
  if b = 0 then a.copy
  else if b.slt 32 then make ((a.high <<< b) ||| (a.low >>> (32 - b))) (a.low <<< b)
  else make (a.low <<< (b - 32)) 0

def shr (a : Int64) (b : Int32) : Int64 :=
  let b := b &&& 63
  if b = 0 then a.copy
  else if b.slt 32 then make (Int32.sshr a.high b) ((a.high <<< (32 - b)) ||| (a.low >>> b))
  else make (Int32.sshr a.high 31) (Int32.sshr a.high (b - 32))

def ushr (a : Int64) (b : Int32) : Int64 :=
  let b := b &&& 63
  if b = 0 then a.copy
  else if b.slt 32 then make (a.high >>> b) ((a.high <<< (32 - b)) ||| (a.low >>> b))
  else make 0 (a.high >>> (b - 32))

/-! ## Division -/

structure DivMod where
  quotient : Int64
  modulus : Int64

/-- The first loop of `divMod`: `none` is no end within the given number of rounds. -/
def scale (modulus : Int64) : Nat → Int64 → Int64 → Option (Int64 × Int64)
  | 0, _, _ => none
  | fuel + 1, divisor, mask =>
    if divisor.isNeg then some (divisor, mask)
    else
      let cmp := ucompare divisor modulus
      let divisor := divisor.shl 1
      let mask := mask.shl 1
      if (0 : Int32).sle cmp then some (divisor, mask) else scale modulus fuel divisor mask

/-- The second loop. -/
def reduce : Nat → Int64 → Int64 → Int64 → Int64 → Option DivMod
  | 0, _, _, _, _ => none
  | fuel + 1, divisor, mask, quotient, modulus =>
    if neq mask (ofInt 0) then
      let take := (0 : Int32).sle (ucompare modulus divisor)
      let quotient := if take then quotient.or mask else quotient
      let modulus := if take then modulus.sub divisor else modulus
      reduce fuel (divisor.ushr 1) (mask.ushr 1) quotient modulus
    else some ⟨quotient, modulus⟩

inductive Thrown where
  | divideByZero
deriving DecidableEq

def divMod (fuel : Nat) (dividend divisor : Int64) : Except Thrown (Option DivMod) :=
  if divisor.high = 0 ∧ divisor.low = 0 then .error .divideByZero
  else if divisor.high = 0 ∧ divisor.low = 1 then .ok (some ⟨dividend.copy, ofInt 0⟩)
  else
    let divSign := dividend.isNeg != divisor.isNeg
    let modulus := if dividend.isNeg then dividend.neg else dividend.copy
    let divisor := if divisor.isNeg then divisor.neg else divisor
    .ok do
      let (divisor, mask) ← scale modulus fuel divisor (ofInt 1)
      let r ← reduce fuel divisor mask (ofInt 0) modulus
      let quotient := if divSign then r.quotient.neg else r.quotient
      let modulus := if dividend.isNeg then r.modulus.neg else r.modulus
      return ⟨quotient, modulus⟩

end Int64

/-! The decimal text of an `Int64`: `Int64.toString`, and `Int64Helper.parseString` with the functions of `StringTools` that
it trims its text by. -/

abbrev Str := List Char

namespace StringTools

def isSpace (c : Char) : Bool := (8 < c.toNat && c.toNat < 14) || c.toNat == 32

def ltrim (s : Str) : Str := s.dropWhile isSpace

def rtrim (s : Str) : Str := (s.reverse.dropWhile isSpace).reverse

def trim (s : Str) : Str := ltrim (rtrim s)

end StringTools

namespace Int64

/-- The text of an `Int`. -/
def text (x : Int32) : Str := x.toInt.repr.toList

/-- The loop of `toString`: `none` is no end within the given number of rounds. -/
def toStringLoop (fuel : Nat) : Nat → Int64 → Str → Except Thrown (Option Str)
  | 0, _, _ => .ok none
  | rounds + 1, i, str =>
    if neq i (ofInt 0) then do
      match ← divMod fuel i (ofInt 10) with
      | none => .ok none
      | some r =>
        if r.modulus.isNeg then toStringLoop fuel rounds (neg r.quotient) (text (neg r.modulus).low ++ str)
        else toStringLoop fuel rounds r.quotient (text r.modulus.low ++ str)
    else .ok (some str)

def toString (fuel : Nat) (i : Int64) : Except Thrown (Option Str) :=
  if eq i (ofInt 0) then .ok (some ['0'])
  else do
    let str ← toStringLoop fuel fuel i []
    return if i.isNeg then str.map ('-' :: ·) else str

end Int64

namespace Int64Helper

open EvilHaxe.Numeric.Int64

inductive NumberError where
  | format | underflow | overflow
deriving DecidableEq

/-- What is thrown. -/
def NumberError.message : NumberError → String
  | .format => "NumberFormatError"
  | .underflow => "NumberFormatError: Underflow"
  | .overflow => "NumberFormatError: Overflow"

/-- What one digit does to `current`. -/
def addDigit (sIsNegative : Bool) (current multiplier : Int64) (digitInt : Int) : Except NumberError Int64 :=
  if digitInt ≠ 0 then
    let digit := ofInt (BitVec.ofInt 32 digitInt)
    if sIsNegative then
      let current := sub current (mul multiplier digit)
      if !current.isNeg then .error .underflow else .ok current
    else
      let current := add current (mul multiplier digit)
      if current.isNeg then .error .overflow else .ok current
  else .ok current

/-- The loop of `parseString`, over the characters from the last to the first. -/
def parseLoop (sIsNegative : Bool) : Str → Int64 → Int64 → Except NumberError Int64
  | [], current, _ => .ok current
  | c :: cs, current, multiplier => do
    let digitInt : Int := (c.toNat : Int) - '0'.toNat
    if digitInt < 0 ∨ 9 < digitInt then throw .format
    let current ← addDigit sIsNegative current multiplier digitInt
    parseLoop sIsNegative cs current (mul multiplier (ofInt 10))

def parseString (sParam : Str) : Except NumberError Int64 :=
  let s := StringTools.trim sParam
  let sIsNegative := s.head? == some '-'
  let s := if sIsNegative then s.tail else s
  parseLoop sIsNegative s.reverse (ofInt 0) (ofInt 1)

end Int64Helper

end EvilHaxe.Numeric
