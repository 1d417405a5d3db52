/-
`haxe.crypto.Md5`, `Sha1` and `Sha256` on the targets whose strings are Unicode: there `str2blks` takes the bytes of the
string. `Int` has 32 bits. How many units a string has by its own length depends on the target.
-/
import EvilHaxe.Lib.Utf8
import Mathlib.Algebra.Ring.Nat
import Mathlib.Algebra.Ring.Int.Defs

namespace EvilHaxe.Crypto.Digest

open Lib.Utf8

abbrev Word := BitVec 32

/-- `haxe.io.Bytes`. -/
abbrev Octets := List Nat

/-- `Bytes.ofString`. -/
def ofString (s : List Char) : Octets := Lib.Utf8.bytes s

/-! ## Hexadecimal text -/

def hexChar (n : Nat) : Char := "0123456789abcdef".toList.getD n '0'

/-- `Bytes.toHex`. -/
def toHex (b : Octets) : List Char := b.flatMap fun c => [hexChar (c >>> 4), hexChar (c &&& 15)]

def hexChars : List Char := "0123456789ABCDEF".toList

/-- The loop of `StringTools.hex`; a word has eight digits, so that no more rounds than that are made. -/
def hexLoop : Nat → Nat → List Char → List Char
  | 0, _, s => s
  | rounds + 1, n, s =>
    let s := hexChars.getD (n &&& 15) '0' :: s
    if n >>> 4 > 0 then hexLoop rounds (n >>> 4) s else s

/-- `StringTools.hex`. -/
def hex (n : Word) (digits : Nat) : List Char :=
  let s := hexLoop 8 n.toNat []
  List.replicate (digits - s.length) '0' ++ s

/-- The `hex` of `Sha1` and `Sha256`. -/
def shaHex (a : List Word) : List Char := (a.flatMap fun num => hex num 8).map Char.toLower

/-- The bytes of a word, the highest first: `out.set` keeps the low byte. -/
def highFirst (h : Word) : Octets :=
  [h >>> 24, h.sshiftRight 16 &&& 0xFF, h.sshiftRight 8 &&& 0xFF, h &&& 0xFF].map fun x => x.toNat % 256

/-! ## Blocks -/

/-- `blks[i] |= x`. -/
def orAt (blks : List Word) (i : Nat) (x : Word) : List Word := blks.modify i (· ||| x)

/-- How many blocks are needed. -/
def nblk (length : Nat) : Nat := ((length + 8) >>> 6) + 1

/-- The writes of a loop over the bytes. -/
def writeBytes (shift : Nat → Nat) (b : Octets) (blks : List Word) : List Word :=
  b.zipIdx.foldl (fun blks c => orAt blks (c.2 >>> 2) (BitVec.ofNat 32 c.1 <<< shift c.2)) blks

/-! ## `Md5` -/

namespace Md5

/-- The places of bytes within words, by `%`. -/
def modShift (l i : Nat) : Nat := ((l + i) % 4) * 8

/-- The places of bytes within words, by `&`. -/
def andShift (l i : Nat) : Nat := ((l + i) &&& 3) <<< 3

/-- The length in bits, in two of the words. -/
def writeLength (blks : List Word) (k : Nat) (l : Word) : List Word :=
  let blks := blks.set k (l &&& 0xFF)
  let blks := orAt blks k ((l >>> 8 &&& 0xFF) <<< 8)
  let blks := orAt blks k ((l >>> 16 &&& 0xFF) <<< 16)
  orAt blks k ((l >>> 24 &&& 0xFF) <<< 24)

def bytes2blks (b : Octets) : List Word :=
  let blks := List.replicate (nblk b.length * 16) (0 : Word)
  let blks := writeBytes (andShift (b.length <<< 3)) b blks
  let blks := orAt blks (b.length >>> 2) ((0x80 : Word) <<< modShift (b.length * 8) b.length)
  writeLength blks (nblk b.length * 16 - 2) (BitVec.ofNat 32 (b.length * 8))

def str2blks (str : List Char) : List Word :=
  let str := ofString str
  let l := str.length * 8
  let blks := List.replicate (nblk str.length * 16) (0 : Word)
  let blks := writeBytes (modShift l) str blks
  let blks := orAt blks (str.length >>> 2) ((0x80 : Word) <<< modShift l str.length)
  writeLength blks (nblk str.length * 16 - 2) (BitVec.ofNat 32 l)

def bitOR (a b : Word) : Word :=
  let lsb := (a &&& 0x1) ||| (b &&& 0x1)
  let msb31 := (a >>> 1) ||| (b >>> 1)
  (msb31 <<< 1) ||| lsb

def bitXOR (a b : Word) : Word :=
  let lsb := (a &&& 0x1) ^^^ (b &&& 0x1)
  let msb31 := (a >>> 1) ^^^ (b >>> 1)
  (msb31 <<< 1) ||| lsb

def bitAND (a b : Word) : Word :=
  let lsb := (a &&& 0x1) &&& (b &&& 0x1)
  let msb31 := (a >>> 1) &&& (b >>> 1)
  (msb31 <<< 1) ||| lsb

def addme (x y : Word) : Word :=
  let lsw := (x &&& 0xFFFF) + (y &&& 0xFFFF)
  let msw := x.sshiftRight 16 + y.sshiftRight 16 + lsw.sshiftRight 16
  (msw <<< 16) ||| (lsw &&& 0xFFFF)

def rol (num : Word) (cnt : Nat) : Word := (num <<< cnt) ||| (num >>> (32 - cnt))

def cmn (q a b x : Word) (s : Nat) (t : Word) : Word := addme (rol (addme (addme a q) (addme x t)) s) b

def ff (a b c d x : Word) (s : Nat) (t : Word) : Word := cmn (bitOR (bitAND b c) (bitAND (~~~b) d)) a b x s t

def gg (a b c d x : Word) (s : Nat) (t : Word) : Word := cmn (bitOR (bitAND b d) (bitAND c (~~~d))) a b x s t

def hh (a b c d x : Word) (s : Nat) (t : Word) : Word := cmn (bitXOR (bitXOR b c) d) a b x s t

def ii (a b c d x : Word) (s : Nat) (t : Word) : Word := cmn (bitXOR c (bitOR b (~~~d))) a b x s t

inductive Fn where
  | ff | gg | hh | ii

def Fn.apply : Fn → Word → Word → Word → Word → Word → Nat → Word → Word
  | .ff => Md5.ff
  | .gg => Md5.gg
  | .hh => Md5.hh
  | .ii => Md5.ii

/-- The assignments of a round: the function, the word of the block, the rotation and the constant. -/
def assignments : List (Fn × Nat × Nat × Int) :=
  [
    (.ff, 0, 7, -680876936), (.ff, 1, 12, -389564586), (.ff, 2, 17, 606105819), (.ff, 3, 22, -1044525330),
    (.ff, 4, 7, -176418897), (.ff, 5, 12, 1200080426), (.ff, 6, 17, -1473231341), (.ff, 7, 22, -45705983),
    (.ff, 8, 7, 1770035416), (.ff, 9, 12, -1958414417), (.ff, 10, 17, -42063), (.ff, 11, 22, -1990404162),
    (.ff, 12, 7, 1804603682), (.ff, 13, 12, -40341101), (.ff, 14, 17, -1502002290), (.ff, 15, 22, 1236535329),
    (.gg, 1, 5, -165796510), (.gg, 6, 9, -1069501632), (.gg, 11, 14, 643717713), (.gg, 0, 20, -373897302),
    (.gg, 5, 5, -701558691), (.gg, 10, 9, 38016083), (.gg, 15, 14, -660478335), (.gg, 4, 20, -405537848),
    (.gg, 9, 5, 568446438), (.gg, 14, 9, -1019803690), (.gg, 3, 14, -187363961), (.gg, 8, 20, 1163531501),
    (.gg, 13, 5, -1444681467), (.gg, 2, 9, -51403784), (.gg, 7, 14, 1735328473), (.gg, 12, 20, -1926607734),
    (.hh, 5, 4, -378558), (.hh, 8, 11, -2022574463), (.hh, 11, 16, 1839030562), (.hh, 14, 23, -35309556),
    (.hh, 1, 4, -1530992060), (.hh, 4, 11, 1272893353), (.hh, 7, 16, -155497632), (.hh, 10, 23, -1094730640),
    (.hh, 13, 4, 681279174), (.hh, 0, 11, -358537222), (.hh, 3, 16, -722521979), (.hh, 6, 23, 76029189),
    (.hh, 9, 4, -640364487), (.hh, 12, 11, -421815835), (.hh, 15, 16, 530742520), (.hh, 2, 23, -995338651),
    (.ii, 0, 6, -198630844), (.ii, 7, 10, 1126891415), (.ii, 14, 15, -1416354905), (.ii, 5, 21, -57434055),
    (.ii, 12, 6, 1700485571), (.ii, 3, 10, -1894986606), (.ii, 10, 15, -1051523), (.ii, 1, 21, -2054922799),
    (.ii, 8, 6, 1873313359), (.ii, 15, 10, -30611744), (.ii, 6, 15, -1560198380), (.ii, 13, 21, 1309151649),
    (.ii, 4, 6, -145523070), (.ii, 11, 10, -1120210379), (.ii, 2, 15, 718787259), (.ii, 9, 21, -343485551)
  ]

/-- The loop over a block. Each assignment changes the variable whose turn it is, which are `a`, `d`, `c`, `b` in turn. -/
def block (x : List Word) (i : Nat) (h : Word × Word × Word × Word) : Word × Word × Word × Word :=
  let (olda, oldb, oldc, oldd) := h
  let (a, b, c, d) := assignments.foldl
    (fun (a, b, c, d) (f, k, s, t) => (d, f.apply a b c d (x.getD (i + k) 0) s (BitVec.ofInt 32 t), b, c)) h
  (addme a olda, addme b oldb, addme c oldc, addme d oldd)

def doEncode (x : List Word) : List Word :=
  let (a, b, c, d) := (List.range ((x.length + 15) / 16)).foldl (fun h i => block x (16 * i) h)
    (BitVec.ofInt 32 1732584193, BitVec.ofInt 32 (-271733879), BitVec.ofInt 32 (-1732584194), BitVec.ofInt 32 271733878)
  [a, b, c, d]

def hex (a : List Word) : List Char :=
  a.flatMap fun num => (List.range 4).flatMap fun j =>
    [hexChar (num.sshiftRight (j * 8 + 4) &&& 0x0F).toNat, hexChar (num.sshiftRight (j * 8) &&& 0x0F).toNat]

def encode (s : List Char) : List Char := hex (doEncode (str2blks s))

/-- The bytes of a word, the lowest first. -/
def lowFirst (h : Word) : Octets :=
  [h &&& 0xFF, h.sshiftRight 8 &&& 0xFF, h.sshiftRight 16 &&& 0xFF, h >>> 24].map fun x => x.toNat % 256

def make (b : Octets) : Octets := (doEncode (bytes2blks b)).flatMap lowFirst

end Md5

/-! ## `Sha1` -/

namespace Sha1

def bytes2blks (b : Octets) : List Word :=
  let blks := List.replicate (nblk b.length * 16) (0 : Word)
  let blks := writeBytes (fun i => 24 - ((i &&& 3) <<< 3)) b blks
  let blks := orAt blks (b.length >>> 2) ((0x80 : Word) <<< (24 - ((b.length &&& 3) <<< 3)))
  blks.set (nblk b.length * 16 - 1) (BitVec.ofNat 32 (b.length * 8))

/-- On these targets the copy for strings differs in the first line only. -/
def str2blks (s : List Char) : List Word := bytes2blks (ofString s)

def rol (num : Word) (cnt : Nat) : Word := (num <<< cnt) ||| (num >>> (32 - cnt))

def ft (t : Nat) (b c d : Word) : Word :=
  if t < 20 then (b &&& c) ||| (~~~b &&& d)
  else if t < 40 then b ^^^ c ^^^ d
  else if t < 60 then (b &&& c) ||| (b &&& d) ||| (c &&& d)
  else b ^^^ c ^^^ d

def kt (t : Nat) : Word :=
  if t < 20 then 0x5A827999
  else if t < 40 then 0x6ED9EBA1
  else if t < 60 then 0x8F1BBCDC
  else 0xCA62C1D6

structure State where
  (a b c d e : Word)

/-- One round over a block, with the words of `w` so far. -/
def round (x : List Word) (i : Nat) (s : State × List Word) (j : Nat) : State × List Word :=
  let (s, w) := s
  let wj := if j < 16 then x.getD (i + j) 0
    else rol (w.getD (j - 3) 0 ^^^ w.getD (j - 8) 0 ^^^ w.getD (j - 14) 0 ^^^ w.getD (j - 16) 0) 1
  let t := rol s.a 5 + ft j s.b s.c s.d + s.e + wj + kt j
  (⟨t, s.a, rol s.b 30, s.c, s.d⟩, w ++ [wj])

def block (x : List Word) (old : State) (i : Nat) : State :=
  let (s, _) := (List.range 80).foldl (round x (16 * i)) (old, [])
  ⟨s.a + old.a, s.b + old.b, s.c + old.c, s.d + old.d, s.e + old.e⟩

def doEncode (x : List Word) : List Word :=
  let s := (List.range ((x.length + 15) / 16)).foldl (block x)
    ⟨0x67452301, 0xEFCDAB89, 0x98BADCFE, 0x10325476, 0xC3D2E1F0⟩
  [s.a, s.b, s.c, s.d, s.e]

def encode (s : List Char) : List Char := shaHex (doEncode (str2blks s))

def make (b : Octets) : Octets := (doEncode (bytes2blks b)).flatMap highFirst

end Sha1

/-! ## `Sha256` -/

namespace Sha256

/-- `bytes2blks`, which is that of `Sha1`. -/
def bytes2blks (b : Octets) : List Word := Sha1.bytes2blks b

/-- `str2blks`, which is that of `Sha1`. -/
def str2blks (s : List Char) : List Word := Sha1.str2blks s

def K : List Word :=
  [
    0x428A2F98, 0x71374491, 0xB5C0FBCF, 0xE9B5DBA5, 0x3956C25B, 0x59F111F1, 0x923F82A4, 0xAB1C5ED5, 0xD807AA98,
    0x12835B01, 0x243185BE, 0x550C7DC3, 0x72BE5D74, 0x80DEB1FE, 0x9BDC06A7, 0xC19BF174, 0xE49B69C1, 0xEFBE4786,
    0xFC19DC6, 0x240CA1CC, 0x2DE92C6F, 0x4A7484AA, 0x5CB0A9DC, 0x76F988DA, 0x983E5152, 0xA831C66D, 0xB00327C8,
    0xBF597FC7, 0xC6E00BF3, 0xD5A79147, 0x6CA6351, 0x14292967, 0x27B70A85, 0x2E1B2138, 0x4D2C6DFC, 0x53380D13,
    0x650A7354, 0x766A0ABB, 0x81C2C92E, 0x92722C85, 0xA2BFE8A1, 0xA81A664B, 0xC24B8B70, 0xC76C51A3, 0xD192E819,
    0xD6990624, 0xF40E3585, 0x106AA070, 0x19A4C116, 0x1E376C08, 0x2748774C, 0x34B0BCB5, 0x391C0CB3, 0x4ED8AA4A,
    0x5B9CCA4F, 0x682E6FF3, 0x748F82EE, 0x78A5636F, 0x84C87814, 0x8CC70208, 0x90BEFFFA, 0xA4506CEB, 0xBEF9A3F7,
    0xC67178F2
  ]

def HASH : List Word :=
  [
    0x6A09E667, 0xBB67AE85, 0x3C6EF372, 0xA54FF53A, 0x510E527F, 0x9B05688C, 0x1F83D9AB, 0x5BE0CD19
  ]

def S (x : Word) (n : Nat) : Word := (x >>> n) ||| (x <<< (32 - n))

def R (x : Word) (n : Nat) : Word := x >>> n

def Ch (x y z : Word) : Word := (x &&& y) ^^^ (~~~x &&& z)

def Maj (x y z : Word) : Word := (x &&& y) ^^^ (x &&& z) ^^^ (y &&& z)

def Sigma0256 (x : Word) : Word := S x 2 ^^^ S x 13 ^^^ S x 22

def Sigma1256 (x : Word) : Word := S x 6 ^^^ S x 11 ^^^ S x 25

def Gamma0256 (x : Word) : Word := S x 7 ^^^ S x 18 ^^^ R x 3

def Gamma1256 (x : Word) : Word := S x 17 ^^^ S x 19 ^^^ R x 10

def safeAdd (x y : Word) : Word :=
  let lsw := (x &&& 0xFFFF) + (y &&& 0xFFFF)
  let msw := x.sshiftRight 16 + y.sshiftRight 16 + lsw.sshiftRight 16
  (msw <<< 16) ||| (lsw &&& 0xFFFF)

structure State where
  (a b c d e f g h : Word)

/-- One round over a block, with the words of `W` so far. -/
def round (m : List Word) (i : Nat) (s : State × List Word) (j : Nat) : State × List Word :=
  let (s, W) := s
  let wj := if j < 16 then m.getD (j + i) 0
    else safeAdd (safeAdd (safeAdd (Gamma1256 (W.getD (j - 2) 0)) (W.getD (j - 7) 0)) (Gamma0256 (W.getD (j - 15) 0)))
      (W.getD (j - 16) 0)
  let T1 := safeAdd (safeAdd (safeAdd (safeAdd s.h (Sigma1256 s.e)) (Ch s.e s.f s.g)) (K.getD j 0)) wj
  let T2 := safeAdd (Sigma0256 s.a) (Maj s.a s.b s.c)
  (⟨safeAdd T1 T2, s.a, s.b, s.c, safeAdd s.d T1, s.e, s.f, s.g⟩, W ++ [wj])

def block (m : List Word) (old : State) (i : Nat) : State :=
  let (s, _) := (List.range 64).foldl (round m (16 * i)) (old, [])
  ⟨safeAdd s.a old.a, safeAdd s.b old.b, safeAdd s.c old.c, safeAdd s.d old.d, safeAdd s.e old.e, safeAdd s.f old.f,
    safeAdd s.g old.g, safeAdd s.h old.h⟩

/-- A write at a negative index is none. -/
def atIndex (m : List Word) (i : Word) (f : Word → Word) : List Word := if i.msb then m else m.modify i.toNat f

/-- The padding that `doEncode` writes, with `l` for the length in bits. -/
def pad (m : List Word) (l : Word) : List Word :=
  let m := atIndex m (l.sshiftRight 5) (· ||| (0x80 : Word) <<< ((24 - l.srem 32).toNat % 32))
  atIndex m (((l + 64).sshiftRight 9 <<< 4) + 15) fun _ => l

def doEncode (m : List Word) (l : Word) : List Word :=
  let m := pad m l
  let s := (List.range ((m.length + 15) / 16)).foldl (block m)
    ⟨HASH.getD 0 0, HASH.getD 1 0, HASH.getD 2 0, HASH.getD 3 0, HASH.getD 4 0, HASH.getD 5 0, HASH.getD 6 0,
      HASH.getD 7 0⟩
  [s.a, s.b, s.c, s.d, s.e, s.f, s.g, s.h]

/-- `s.length` is the length of the string on the target, in its units. -/
def encode (length : List Char → Nat) (s : List Char) : List Char :=
  shaHex (doEncode (str2blks s) (BitVec.ofNat 32 (length s * 8)))

def make (b : Octets) : Octets := (doEncode (bytes2blks b) (BitVec.ofNat 32 (b.length * 8))).flatMap highFirst

end Sha256

end EvilHaxe.Crypto.Digest
