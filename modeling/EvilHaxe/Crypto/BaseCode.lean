/-
`haxe.crypto.BaseCode` and `haxe.crypto.Base64`. `Int` has 32 bits: the accumulators of the loops lose their high bits,
and the sizes are computed modulo `2 ^ 32`. A string is given by its UTF-8 bytes.
-/
import Mathlib.Data.List.Basic
import EvilHaxe.Lib.BitStrings

namespace EvilHaxe.Crypto

inductive Thrown where
  | baseLength | invalidChar | outOfBounds
deriving DecidableEq

abbrev Bytes := List UInt8

/-- `Bytes.alloc` -/
def alloc (length : Int) : Except Thrown Bytes :=
  if length < 0 then .error .outOfBounds else .ok (List.replicate length.toNat 0)

/-- The product of two `Int`s. -/
def product (a b : Nat) : Int := (BitVec.ofNat 32 (a * b)).toInt

structure BaseCode where
  base : Bytes
  nbits : Nat
deriving DecidableEq

namespace BaseCode

/-- The loop of the constructor. -/
def nbitsLoop (len nbits : Nat) : Nat := if 1 <<< nbits < len then nbitsLoop len (nbits + 1) else nbits
termination_by len - nbits
decreasing_by
  have hlt : nbits < 2 ^ nbits := Nat.lt_two_pow_self
  rw [Nat.one_shiftLeft] at *
  omega

def new (base : Bytes) : Except Thrown BaseCode :=
  let nbits := nbitsLoop base.length 1
  if 8 < nbits ∨ base.length ≠ 1 <<< nbits then .error .baseLength else .ok ⟨base, nbits⟩

/-- `(1 << nbits) - 1` -/
def mask (nbits : Nat) : BitVec 32 := 1#32 <<< nbits - 1#32

/-- What a loop has read and not written: `curbits` low bits of `buf`, and the input from `pin` on. -/
structure Reader where
  buf : BitVec 32
  curbits : Nat
  input : Bytes

/-- The inner loops: until there are `width` bits, the next byte gives `step` more. -/
def fill (width step : Nat) (get : UInt8 → Except Thrown Nat) (buf : BitVec 32) (curbits : Nat) :
    Bytes → Except Thrown Reader
  | [] => if curbits < width then .error .outOfBounds else .ok ⟨buf, curbits, []⟩
  | b :: input =>
    if curbits < width then do
      let i ← get b
      fill width step get (buf <<< step ||| BitVec.ofNat 32 i) (curbits + step) input
    else .ok ⟨buf, curbits, b :: input⟩

/-- The outer loops: `width` bits at a time are written, from `pout` on. -/
def write (width step : Nat) (get : UInt8 → Except Thrown Nat) (put : Nat → UInt8) :
    Nat → Nat → Bytes → Reader → Except Thrown (Bytes × Reader)
  | 0, _, out, r => .ok (out, r)
  | rounds + 1, pout, out, r => do
    let r ← fill width step get r.buf r.curbits r.input
    let curbits := r.curbits - width
    let bits := (r.buf.sshiftRight curbits &&& mask width).toNat
    write width step get put rounds (pout + 1) (out.set pout (put bits)) ⟨r.buf, curbits, r.input⟩

/-- `base.get` -/
def char (c : BaseCode) (i : Nat) : UInt8 := c.base.getD i 0

def encodeBytes (c : BaseCode) (b : Bytes) : Except Thrown Bytes := do
  let bits := product b.length 8
  let size := bits.tdiv c.nbits
  let out ← alloc (size + if bits.tmod c.nbits = 0 then 0 else 1)
  let (out, r) ← write c.nbits 8 (fun b => .ok b.toNat) c.char size.toNat 0 out ⟨0, 0, b⟩
  if 0 < r.curbits then
    let last := (r.buf <<< (c.nbits - r.curbits) &&& mask c.nbits).toNat
    return out.set size.toNat (c.char last)
  else return out

/-- `initTable` -/
def table (c : BaseCode) : List Int :=
  (c.base.zipIdx).foldl (fun tbl (b, i) => tbl.set b.toNat i) (List.replicate 256 (-1))

/-- What the table has for a byte. -/
def index (c : BaseCode) (b : UInt8) : Except Thrown Nat :=
  let i := c.table.getD b.toNat (-1)
  if i = -1 then .error .invalidChar else .ok i.toNat

def decodeBytes (c : BaseCode) (b : Bytes) : Except Thrown Bytes := do
  let size := product b.length c.nbits / 8
  let out ← alloc size
  let (out, _) ← write 8 c.nbits c.index UInt8.ofNat size.toNat 0 out ⟨0, 0, b⟩
  return out

end BaseCode

namespace Base64

/-- `Bytes.ofString`, of a text in ASCII. -/
def ofString (s : String) : Bytes := s.toList.map fun c => .ofNat c.toNat

def BYTES : Bytes := ofString "ABCDEFGHIJKLMNOPQRSTUVWXYZabcdefghijklmnopqrstuvwxyz0123456789+/"

def URL_BYTES : Bytes := ofString "ABCDEFGHIJKLMNOPQRSTUVWXYZabcdefghijklmnopqrstuvwxyz0123456789-_"

def encodeWith (base bytes : Bytes) (complement : Bool) : Except Thrown Bytes := do
  let c ← BaseCode.new base
  let str ← c.encodeBytes bytes
  return if complement then
      match bytes.length % 3 with
      | 1 => str ++ ofString "=="
      | 2 => str ++ ofString "="
      | _ => str
    else str

/-- The loop of `decode`: `=` at the end is cut off. -/
def cutEnd (str : Bytes) : Bytes := (str.reverse.dropWhile fun b => b == .ofNat '='.toNat).reverse

def decodeWith (base str : Bytes) (complement : Bool) : Except Thrown Bytes := do
  let str := if complement then cutEnd str else str
  let c ← BaseCode.new base
  c.decodeBytes str

def encode (bytes : Bytes) (complement : Bool) : Except Thrown Bytes := encodeWith BYTES bytes complement
def decode (str : Bytes) (complement : Bool) : Except Thrown Bytes := decodeWith BYTES str complement
def urlEncode (bytes : Bytes) (complement : Bool) : Except Thrown Bytes := encodeWith URL_BYTES bytes complement
def urlDecode (str : Bytes) (complement : Bool) : Except Thrown Bytes := decodeWith URL_BYTES str complement

end Base64

/-! The loops of `BaseCode` regroup the bits of their input, and so decoding undoes encoding; the sizes are computed modulo
`2 ^ 32`, and so only of less than `2 ^ 28` bytes. -/

open Lib

namespace BaseCode

/-! ## One step -/

section

variable {width step : Nat} {get : UInt8 → Except Thrown Nat} {val : UInt8 → Nat}

/-- The bits that have not been written. -/
def Reader.ahead (step : Nat) (val : UInt8 → Nat) (r : Reader) : List Bool :=
  highFirst r.curbits r.buf.toNat ++ r.input.flatMap fun b => highFirst step (val b)

/-- What `get` gives for each byte of the input. -/
def Gives (step : Nat) (get : UInt8 → Except Thrown Nat) (val : UInt8 → Nat) (input : Bytes) : Prop :=
  ∀ b ∈ input, get b = .ok (val b) ∧ val b < 2 ^ step

/-- New bits are put behind those of `buf`; what is pushed out at the top is not among them. -/
theorem highFirst_push (buf : BitVec 32) {curbits step i : Nat} (hle : curbits + step ≤ 32) (hi : i < 2 ^ step) :
    highFirst (curbits + step) (buf <<< step ||| BitVec.ofNat 32 i).toNat =
      highFirst curbits buf.toNat ++ highFirst step i := by
  obtain ⟨top, htop⟩ : ∃ top, 32 = top + step := ⟨32 - step, by omega⟩
  have hpow : 2 ^ 32 = 2 ^ top * 2 ^ step := by rw [htop, Nat.pow_add]
  have hi32 : i < 2 ^ 32 := hi.trans_le (Nat.pow_le_pow_right (by decide) (by omega))
  have hpush : (buf <<< step ||| BitVec.ofNat 32 i).toNat = (buf.toNat % 2 ^ top) <<< step + i := by
    rw [Nat.shiftLeft_add_eq_or_of_lt hi, BitVec.toNat_or, BitVec.toNat_shiftLeft, BitVec.toNat_ofNat,
      Nat.mod_eq_of_lt hi32, Nat.shiftLeft_eq, Nat.shiftLeft_eq, hpow, Nat.mul_mod_mul_right]
  rw [hpush, Nat.shiftLeft_eq, highFirst_add, Nat.mul_comm, Nat.mul_add_div (Nat.two_pow_pos step),
    Nat.div_eq_of_lt hi, Nat.add_zero, highFirst_mod_of_le (by omega), ← highFirst_mod step (_ + i),
    Nat.mul_add_mod_self_left, Nat.mod_eq_of_lt hi]

theorem fill_spec (hwidth : width ≤ 8) (hstep : step ≤ 8) {buf : BitVec 32} {curbits : Nat} {input : Bytes}
    (hget : Gives step get val input) (hcurbits : curbits ≤ 16)
    (hbits : width ≤ (Reader.ahead step val ⟨buf, curbits, input⟩).length) :
    ∃ r, fill width step get buf curbits input = .ok r ∧ width ≤ r.curbits ∧ r.curbits ≤ 16 ∧
      r.ahead step val = Reader.ahead step val ⟨buf, curbits, input⟩ ∧ Gives step get val r.input := by
  induction input generalizing buf curbits with
  | nil =>
    have hle : ¬ curbits < width := by
      simpa [Reader.ahead] using hbits
    exact ⟨_, by rw [fill, if_neg hle], Nat.le_of_not_lt hle, hcurbits, rfl, hget⟩
  | cons b input ih =>
    rw [fill]
    split
    next hlt =>
      obtain ⟨hb, hval⟩ := hget b List.mem_cons_self
      have hrest : Gives step get val input := fun x hx => hget x (List.mem_cons_of_mem b hx)
      have hahead : Reader.ahead step val ⟨buf <<< step ||| BitVec.ofNat 32 (val b), curbits + step, input⟩ =
          Reader.ahead step val ⟨buf, curbits, b :: input⟩ := by
        simp only [Reader.ahead, List.flatMap_cons]
        rw [highFirst_push buf (by omega) hval, List.append_assoc]
      rw [hb, ← hahead]
      exact ih hrest (by omega) (hahead ▸ hbits)
    next hle => exact ⟨_, rfl, Nat.le_of_not_lt hle, hcurbits, rfl, hget⟩

theorem toNat_mask {n : Nat} (hn : n ≤ 16) : (mask n).toNat = 2 ^ n - 1 := by
  have hpow : (2 : Nat) ^ n ≤ 2 ^ 16 := Nat.pow_le_pow_right (by decide) hn
  have hpos := Nat.two_pow_pos n
  have hone : (1#32 <<< n).toNat = 2 ^ n := by
    rw [BitVec.toNat_shiftLeft, Nat.shiftLeft_eq, BitVec.toNat_ofNat]
    omega
  rw [mask, BitVec.toNat_sub, hone, BitVec.toNat_ofNat]
  omega

/-- The bits that are written are the first ones ahead. -/
theorem take_bits {r : Reader} (hcurbits : r.curbits ≤ 16) (hle : width ≤ r.curbits) :
    (r.buf.sshiftRight (r.curbits - width) &&& mask width).toNat =
      ofHighFirst ((r.ahead step val).take width) ∧
    Reader.ahead step val ⟨r.buf, r.curbits - width, r.input⟩ = (r.ahead step val).drop width := by
  obtain ⟨rest, hrest⟩ : ∃ rest, r.curbits = width + rest := ⟨r.curbits - width, by omega⟩
  have hahead : r.ahead step val = highFirst width (r.buf.toNat / 2 ^ rest) ++
      (highFirst rest r.buf.toNat ++ r.input.flatMap fun b => highFirst step (val b)) := by
    rw [Reader.ahead, hrest, highFirst_add, List.append_assoc]
  have hmask : (mask width).toNat = 2 ^ width - 1 := toNat_mask (by omega)
  rw [hahead, hrest, Nat.add_sub_cancel_left, List.take_left' (length_highFirst _ _),
    List.drop_left' (length_highFirst _ _), ofHighFirst_highFirst]
  refine ⟨?_, rfl⟩
  have hlogical : r.buf.sshiftRight rest &&& mask width = r.buf >>> rest &&& mask width := by
    refine BitVec.eq_of_getLsbD_eq fun i hi => ?_
    rw [BitVec.getLsbD_and, BitVec.getLsbD_and]
    by_cases hin : i < width
    · rw [BitVec.getLsbD_sshiftRight, BitVec.getLsbD_ushiftRight, if_pos (by omega), decide_eq_false (by omega)]
      rfl
    · have hzero : (mask width).getLsbD i = false := by
        rw [BitVec.getLsbD, hmask, Nat.testBit_two_pow_sub_one]
        exact decide_eq_false hin
      rw [hzero, Bool.and_false, Bool.and_false]
  rw [hlogical, BitVec.toNat_and, hmask, BitVec.toNat_ushiftRight, Nat.and_two_pow_sub_one_eq_mod,
    Nat.shiftRight_eq_div_pow]

/-- The loops write the groups of bits ahead, one behind the other. -/
theorem write_spec (hwidth : width ≤ 8) (hstep : step ≤ 8) (put : Nat → UInt8) (rounds : Nat) {front hole : Bytes}
    {r : Reader} (hget : Gives step get val r.input) (hcurbits : r.curbits ≤ 16)
    (hbits : rounds * width ≤ (r.ahead step val).length) (hhole : rounds ≤ hole.length) :
    ∃ r', write width step get put rounds front.length (front ++ hole) r =
        .ok (front ++ (groups width rounds (r.ahead step val)).map (fun g => put (ofHighFirst g)) ++ hole.drop rounds, r') ∧
      r'.ahead step val = (r.ahead step val).drop (rounds * width) := by
  induction rounds generalizing front hole r with
  | zero => exact ⟨r, by rw [write, groups, List.map_nil, List.append_nil, List.drop_zero], by rw [Nat.zero_mul]; rfl⟩
  | succ rounds ih =>
    rw [Nat.succ_mul] at hbits
    obtain ⟨r1, hfill, hle, hcurbits1, hahead1, hget1⟩ :=
      @fill_spec width step get val hwidth hstep r.buf r.curbits r.input hget hcurbits
        (show width ≤ (r.ahead step val).length by omega)
    have hahead1 : r1.ahead step val = r.ahead step val := hahead1
    obtain ⟨hvalue, hrest⟩ := @take_bits width step val r1 hcurbits1 hle
    rw [hahead1] at hvalue hrest
    obtain ⟨x, hole, rfl⟩ := List.exists_cons_of_length_pos (show 0 < hole.length by omega)
    rw [List.length_cons] at hhole
    obtain ⟨r', hwrite, hahead'⟩ := @ih (front ++ [put (ofHighFirst ((r.ahead step val).take width))]) hole
      ⟨r1.buf, r1.curbits - width, r1.input⟩ hget1 (show r1.curbits - width ≤ 16 by omega)
      (by rw [hrest, List.length_drop]; omega) (by omega)
    rw [hrest] at hwrite hahead'
    refine ⟨r', ?_, ?_⟩
    · have hset : (front ++ x :: hole).set front.length (put (ofHighFirst ((r.ahead step val).take width))) =
          front ++ [put (ofHighFirst ((r.ahead step val).take width))] ++ hole := by
        rw [List.set_append_right _ _ le_rfl, Nat.sub_self, List.set_cons_zero, List.append_assoc]
        rfl
      rw [List.length_append, List.length_singleton] at hwrite
      rw [write, hfill]
      dsimp only [bind, Except.bind]
      rw [hvalue, hset, hwrite, groups, List.map_cons, List.drop_succ_cons, List.append_assoc, List.append_assoc,
        List.append_assoc, List.singleton_append, List.cons_append]
    · rw [hahead', List.drop_drop, Nat.succ_mul, Nat.add_comm]

theorem write_length {put : Nat → UInt8} {rounds pout : Nat} {out out' : Bytes} {r r' : Reader}
    (h : write width step get put rounds pout out r = .ok (out', r')) : out'.length = out.length := by
  induction rounds generalizing pout out r with
  | zero =>
    cases h
    rfl
  | succ rounds ih =>
    rw [write] at h
    cases hfill : fill width step get r.buf r.curbits r.input with
    | error e => rw [hfill] at h; cases h
    | ok r1 =>
      rw [hfill] at h
      rw [ih h, List.length_set]

end

/-! ## Encoding -/

/-- The bits of bytes, the highest of each first. -/
def bitsOf (b : Bytes) : List Bool := b.flatMap fun x => highFirst 8 x.toNat

@[simp] theorem length_bitsOf (b : Bytes) : (bitsOf b).length = b.length * 8 := by
  induction b with
  | nil => rfl
  | cons x b ih =>
    rw [bitsOf] at ih ⊢
    rw [List.flatMap_cons, List.length_append, ih, length_highFirst, List.length_cons]
    omega

/-- The characters of the groups of bits. -/
def encoded (c : BaseCode) (b : Bytes) : Bytes := (paddedGroups c.nbits (bitsOf b)).map fun g => c.char (ofHighFirst g)

theorem product_eq {a b : Nat} (h : a * b < 2147483648) : product a b = (a * b : Nat) := by
  have hvalue : (BitVec.ofNat 32 (a * b)).toNat = a * b := Nat.mod_eq_of_lt (by omega)
  rw [product, BitVec.toInt_eq_toNat_of_lt (by omega), hvalue]

/-- The size of what is encoded, and whether a group is left over. -/
theorem encodedSize_eq {n k : Nat} (hn : n * 8 < 2147483648) :
    (product n 8).tdiv k = (n * 8 / k : Nat) ∧
      (if (product n 8).tmod k = 0 then 0 else 1) = ((if n * 8 % k = 0 then 0 else 1 : Nat) : Int) := by
  rw [product_eq hn, ← Int.ofNat_tdiv, ← Int.ofNat_tmod]
  refine ⟨rfl, ?_⟩
  by_cases h : n * 8 % k = 0
  · rw [if_pos h, if_pos (Int.natCast_eq_zero.2 h)]
    rfl
  · rw [if_neg h, if_neg (mt Int.natCast_eq_zero.1 h)]
    rfl

theorem alloc_natCast (n : Nat) : alloc n = .ok (List.replicate n 0) := by
  rw [alloc, if_neg (Int.not_lt.2 (Int.natCast_nonneg n)), Int.toNat_natCast]

theorem last_bits {c : BaseCode} (hnbits : c.nbits ≤ 8) {buf : BitVec 32} {curbits : Nat} (hlt : curbits ≤ c.nbits) :
    (buf <<< (c.nbits - curbits) &&& mask c.nbits).toNat =
      ofHighFirst (highFirst curbits buf.toNat ++ List.replicate (c.nbits - curbits) false) := by
  obtain ⟨rest, hrest⟩ : ∃ rest, c.nbits = curbits + rest := ⟨c.nbits - curbits, by omega⟩
  have hdvd : 2 ^ (curbits + rest) ∣ 2 ^ 32 := Nat.pow_dvd_pow 2 (by omega)
  have hshift : (buf <<< rest).toNat % 2 ^ (curbits + rest) = buf.toNat % 2 ^ curbits * 2 ^ rest := by
    rw [BitVec.toNat_shiftLeft, Nat.shiftLeft_eq, Nat.mod_mod_of_dvd _ hdvd, Nat.pow_add, Nat.mul_mod_mul_right]
  rw [ofHighFirst_append_zeros, ofHighFirst_highFirst, hrest, Nat.add_sub_cancel_left, BitVec.toNat_and,
    toNat_mask (by omega), Nat.and_two_pow_sub_one_eq_mod, hshift]

/-- The bytes of a size that `Int` can hold are encoded group by group. -/
theorem encodeBytes_eq {c : BaseCode} (hpos : 0 < c.nbits) (hnbits : c.nbits ≤ 8) {b : Bytes} (hb : b.length < 2 ^ 28) :
    c.encodeBytes b = .ok (c.encoded b) := by
  have hbytes : b.length * 8 < 2147483648 := by omega
  have hgives : Gives 8 (fun b => .ok b.toNat) (fun b => b.toNat) b := fun x _ => ⟨rfl, x.toNat_lt⟩
  have hstart : Reader.ahead 8 (fun b => b.toNat) ⟨0, 0, b⟩ = bitsOf b := rfl
  obtain ⟨size, rem, hsize, hrem⟩ : ∃ size rem, b.length * 8 = size * c.nbits + rem ∧ rem < c.nbits :=
    ⟨b.length * 8 / c.nbits, b.length * 8 % c.nbits, (Nat.div_add_mod' _ _).symm, Nat.mod_lt _ hpos⟩
  have hdiv : b.length * 8 / c.nbits = size := by
    rw [hsize, Nat.mul_comm, Nat.mul_add_div hpos, Nat.div_eq_of_lt hrem, Nat.add_zero]
  have hmod : b.length * 8 % c.nbits = rem := by
    rw [hsize, Nat.mul_add_mod_self_right, Nat.mod_eq_of_lt hrem]
  obtain ⟨r, hwrite, hahead⟩ := @write_spec c.nbits 8 (fun b => .ok b.toNat) (fun b => b.toNat) hnbits le_rfl c.char size
    [] (List.replicate (size + if rem = 0 then 0 else 1) 0) ⟨0, 0, b⟩ hgives (Nat.zero_le _)
    (by rw [hstart, length_bitsOf]; omega) (by rw [List.length_replicate]; omega)
  rw [hstart] at hwrite hahead
  -- fewer bits than a byte has are left, so all bytes have been read
  have hleft : (highFirst r.curbits r.buf.toNat ++ bitsOf r.input).length = rem := by
    have hlength := congrArg List.length hahead
    rw [List.length_drop, length_bitsOf, hsize, Nat.add_sub_cancel_left] at hlength
    exact hlength
  rw [List.length_append, length_highFirst, length_bitsOf] at hleft
  have hread : r.input = [] := List.eq_nil_of_length_eq_zero (by omega)
  have hcurbits : r.curbits = rem := by omega
  have hlast : highFirst rem r.buf.toNat = (bitsOf b).drop (size * c.nbits) := by
    rw [← hahead, Reader.ahead, hread, hcurbits, List.flatMap_nil, List.append_nil]
  rw [List.nil_append, List.nil_append, List.length_nil, List.drop_replicate, Nat.add_sub_cancel_left] at hwrite
  rw [encodeBytes]
  dsimp only [bind, Except.bind, pure, Except.pure]
  rw [(encodedSize_eq hbytes).1, (encodedSize_eq hbytes).2, hdiv, hmod, ← Int.natCast_add, alloc_natCast]
  dsimp only
  rw [Int.toNat_natCast, hwrite]
  dsimp only
  rw [hcurbits, encoded, paddedGroups, length_bitsOf, hsize]
  by_cases hzero : rem = 0
  · have hcount : (size * c.nbits + rem + (c.nbits - 1)) / c.nbits = size := by
      rw [hzero, Nat.add_zero, Nat.mul_comm, Nat.mul_add_div hpos, Nat.div_eq_of_lt (by omega), Nat.add_zero]
    rw [hcount, if_neg (by omega), if_pos hzero, groups_append (by rw [length_bitsOf]; omega), List.replicate_zero,
      List.append_nil]
  · have hcount : (size * c.nbits + rem + (c.nbits - 1)) / c.nbits = size + 1 := by
      have hrewrite : size * c.nbits + rem + (c.nbits - 1) = c.nbits * (size + 1) + (rem - 1) := by
        rw [Nat.mul_add, Nat.mul_one, Nat.mul_comm]
        omega
      rw [hrewrite, Nat.mul_add_div hpos, Nat.div_eq_of_lt (by omega), Nat.add_zero]
    have hgroup : ((bitsOf b ++ List.replicate c.nbits false).drop (size * c.nbits)).take c.nbits =
        highFirst rem r.buf.toNat ++ List.replicate (c.nbits - rem) false := by
      rw [List.drop_append_of_le_length (by rw [length_bitsOf]; omega), ← hlast, List.take_append, length_highFirst,
        List.take_of_length_le (by rw [length_highFirst]; omega), List.take_replicate, Nat.min_eq_left (by omega)]
    have hlastbits := @last_bits c hnbits r.buf rem hrem.le
    rw [hcount, if_pos (by omega), if_neg hzero, groups_succ, groups_append (by rw [length_bitsOf]; omega), hgroup,
      hlastbits, List.replicate_one, List.map_append, List.set_append_right _ _ (by rw [List.length_map, length_groups]),
      List.length_map, length_groups, Nat.sub_self]
    rfl

/-! ## Dictionaries -/

/-- A dictionary: as many different characters as groups of `k` bits. -/
structure Dictionary (base : Bytes) (k : Nat) : Prop where
  pos : 0 < k
  le : k ≤ 8
  length : base.length = 2 ^ k
  nodup : base.Nodup

theorem nbitsLoop_eq {k j : Nat} (h : j ≤ k) : nbitsLoop (2 ^ k) j = k := by
  rw [nbitsLoop, Nat.one_shiftLeft]
  split
  next hlt =>
    have hjk : j < k := (Nat.pow_lt_pow_iff_right (by decide)).1 hlt
    exact nbitsLoop_eq hjk
  next hge =>
    exact Nat.le_antisymm h ((Nat.pow_le_pow_iff_right (by decide)).1 (Nat.le_of_not_lt hge))
termination_by k - j

theorem new_eq {base : Bytes} {k : Nat} (h : Dictionary base k) : new base = .ok ⟨base, k⟩ := by
  have hnbits : nbitsLoop base.length 1 = k := by
    rw [h.length]
    exact nbitsLoop_eq h.pos
  have hlength : base.length = 1 <<< k := by rw [h.length, Nat.one_shiftLeft]
  rw [new, hnbits]
  exact if_neg (not_or.2 ⟨Nat.not_lt.2 h.le, not_not.2 hlength⟩)

theorem table_notMem {base : Bytes} {start : Nat} {tbl : List Int} {x : Nat} (hx : ∀ b ∈ base, b.toNat ≠ x) :
    ((base.zipIdx start).foldl (fun tbl (b, i) => tbl.set b.toNat (Int.ofNat i)) tbl).getD x (-1) = tbl.getD x (-1) := by
  induction base generalizing start tbl with
  | nil => rfl
  | cons b base ih =>
    rw [List.zipIdx_cons, List.foldl_cons, ih fun y hy => hx y (List.mem_cons_of_mem b hy), List.getD_eq_getElem?_getD,
      List.getElem?_set_ne (hx b List.mem_cons_self), List.getD_eq_getElem?_getD]

theorem table_get {base : Bytes} {start : Nat} {tbl : List Int} (htbl : tbl.length = 256) (hnodup : base.Nodup)
    {i : Nat} (hi : i < base.length) :
    ((base.zipIdx start).foldl (fun tbl (b, i) => tbl.set b.toNat (Int.ofNat i)) tbl).getD base[i].toNat (-1) =
      (start + i : Nat) := by
  induction base generalizing start tbl i with
  | nil => cases hi
  | cons b base ih =>
    rw [List.nodup_cons] at hnodup
    rw [List.zipIdx_cons, List.foldl_cons]
    cases i with
    | zero =>
      have hlt : b.toNat < tbl.length := htbl ▸ b.toNat_lt
      have hne : ∀ x ∈ base, x.toNat ≠ b.toNat := by
        intro x hx heq
        exact hnodup.1 (UInt8.toNat_inj.1 heq ▸ hx)
      rw [List.getElem_cons_zero, table_notMem hne, List.getD_eq_getElem?_getD, List.getElem?_set_self hlt]
      rfl
    | succ i =>
      rw [List.length_cons] at hi
      rw [List.getElem_cons_succ, ih (by rw [List.length_set, htbl]) hnodup.2 (by omega), Nat.add_assoc, Nat.add_comm 1]

theorem index_char {base : Bytes} {k : Nat} (h : Dictionary base k) {i : Nat} (hi : i < 2 ^ k) :
    index ⟨base, k⟩ (char ⟨base, k⟩ i) = .ok i := by
  have hlt : i < base.length := h.length ▸ hi
  have hget : (table ⟨base, k⟩).getD base[i].toNat (-1) = (i : Nat) := by
    have hall := @table_get base 0 (List.replicate 256 (-1)) List.length_replicate h.nodup i hlt
    rwa [Nat.zero_add] at hall
  rw [index, char, List.getD_eq_getElem _ _ hlt, hget]
  exact if_neg (by omega)

/-! ## Decoding -/

/-- The bits of the groups, put together, are those that were cut, and some of the padding. -/
theorem flatten_paddedGroups {k : Nat} (hk : 0 < k) (w : List Bool) :
    ∃ pad, (paddedGroups k w).flatten = w ++ pad ∧ pad.length < k := by
  have hle : w.length ≤ (w.length + (k - 1)) / k * k ∧ (w.length + (k - 1)) / k * k ≤ w.length + (k - 1) := by
    have hdiv := Nat.div_add_mod' (w.length + (k - 1)) k
    have hmod := Nat.mod_lt (w.length + (k - 1)) hk
    omega
  refine ⟨(List.replicate k false).take ((w.length + (k - 1)) / k * k - w.length), ?_, ?_⟩
  · rw [paddedGroups, flatten_groups, List.take_append, List.take_of_length_le hle.1]
  · rw [List.length_take]
    omega

theorem length_of_mem_paddedGroups {k : Nat} (hk : 0 < k) (w : List Bool) : ∀ g ∈ paddedGroups k w, g.length = k := by
  refine length_of_mem_groups ?_
  have hle := Nat.div_mul_le_self (w.length + (k - 1)) k
  rw [List.length_append, List.length_replicate]
  omega

theorem decodeBytes_encoded {base : Bytes} {k : Nat} (h : Dictionary base k) {b : Bytes} (hb : b.length < 2 ^ 28) :
    decodeBytes ⟨base, k⟩ (encoded ⟨base, k⟩ b) = .ok b := by
  let val : UInt8 → Nat := fun x => ((index ⟨base, k⟩ x).toOption.getD 0)
  have hval : ∀ g ∈ paddedGroups k (bitsOf b), index ⟨base, k⟩ (char ⟨base, k⟩ (ofHighFirst g)) = .ok (ofHighFirst g) ∧
      ofHighFirst g < 2 ^ k := by
    intro g hg
    have hlt := ofHighFirst_lt g
    rw [length_of_mem_paddedGroups h.pos _ g hg] at hlt
    exact ⟨index_char h hlt, hlt⟩
  have hgives : Gives k (index ⟨base, k⟩) val (encoded ⟨base, k⟩ b) := by
    intro x hx
    obtain ⟨g, hg, rfl⟩ := List.mem_map.1 hx
    obtain ⟨hindex, hlt⟩ := hval g hg
    have hvalue : val (char ⟨base, k⟩ (ofHighFirst g)) = ofHighFirst g := by
      simp only [val, hindex]
      rfl
    rw [hvalue]
    exact ⟨hindex, hlt⟩
  obtain ⟨pad, hflatten, hpad⟩ := flatten_paddedGroups h.pos (bitsOf b)
  have hahead : Reader.ahead k val ⟨0, 0, encoded ⟨base, k⟩ b⟩ = bitsOf b ++ pad := by
    rw [← hflatten]
    have hgroups : ∀ gs : List (List Bool), (∀ g ∈ gs, g ∈ paddedGroups k (bitsOf b)) →
        (gs.map fun g => char ⟨base, k⟩ (ofHighFirst g)).flatMap (fun x => highFirst k (val x)) = gs.flatten := by
      intro gs hgs
      induction gs with
      | nil => rfl
      | cons g gs ih =>
        have hg := hgs g List.mem_cons_self
        have hvalue : val (char ⟨base, k⟩ (ofHighFirst g)) = ofHighFirst g := by
          simp only [val, (hval g hg).1]
          rfl
        have hbits := highFirst_ofHighFirst g
        rw [length_of_mem_paddedGroups h.pos _ g hg] at hbits
        rw [List.map_cons, List.flatMap_cons, ih fun g' hg' => hgs g' (List.mem_cons_of_mem g hg'), hvalue, hbits,
          List.flatten_cons]
    exact hgroups _ fun g hg => hg
  have hlength : (encoded ⟨base, k⟩ b).length * k = b.length * 8 + pad.length := by
    have hbits := congrArg List.length hflatten
    rw [paddedGroups, flatten_groups, List.length_append, length_bitsOf, List.length_take, List.length_append,
      List.length_replicate, length_bitsOf] at hbits
    rw [encoded, List.length_map, paddedGroups, length_groups, length_bitsOf]
    dsimp only
    have hle := Nat.div_mul_le_self (b.length * 8 + (k - 1)) k
    omega
  have hk := h.le
  have hsize : product (encoded ⟨base, k⟩ b).length k / 8 = (b.length : Nat) := by
    rw [product_eq (by omega), hlength]
    omega
  obtain ⟨r, hwrite, -⟩ := @write_spec 8 k (index ⟨base, k⟩) val le_rfl h.le UInt8.ofNat b.length [] (List.replicate b.length 0)
    ⟨0, 0, encoded ⟨base, k⟩ b⟩ hgives (Nat.zero_le _) (by rw [hahead, List.length_append, length_bitsOf]; omega)
    (by rw [List.length_replicate])
  rw [hahead, bitsOf, groups_flatMap (fun _ => length_highFirst 8 _), List.map_map, List.nil_append, List.nil_append,
    List.length_nil, List.drop_replicate, Nat.sub_self, List.replicate_zero, List.append_nil] at hwrite
  have hbytes : b.map ((fun g => UInt8.ofNat (ofHighFirst g)) ∘ fun x => highFirst 8 x.toNat) = b := by
    refine (List.map_congr_left fun x _ => ?_).trans (List.map_id b)
    have hx : x.toNat < 2 ^ 8 := x.toNat_lt
    rw [Function.comp, ofHighFirst_highFirst, Nat.mod_eq_of_lt hx, UInt8.ofNat_toNat]
    rfl
  rw [hbytes] at hwrite
  rw [decodeBytes]
  dsimp only [bind, Except.bind, pure, Except.pure]
  rw [hsize, alloc_natCast]
  dsimp only
  rw [Int.toNat_natCast, hwrite]

/-! ## Sizes that `Int` cannot hold -/

theorem product_wraps {n : Nat} (h : 2147483648 ≤ n * 8) : product n 8 ≤ (n * 8 : Nat) - 4294967296 := by
  have hvalue : (BitVec.ofNat 32 (n * 8)).toNat = n * 8 % 4294967296 := BitVec.toNat_ofNat _ _
  rw [product, BitVec.toInt_eq_toNat_cond, hvalue]
  split <;> omega

theorem length_of_alloc {n : Int} {out : Bytes} (h : alloc n = .ok out) : (out.length : Int) = n := by
  rw [alloc] at h
  split at h
  · cases h
  · cases h
    rw [List.length_replicate]
    omega

theorem encodeBytes_length {c : BaseCode} {b e : Bytes} (h : c.encodeBytes b = .ok e) :
    (e.length : Int) ≤ (product b.length 8).tdiv c.nbits + 1 := by
  rw [encodeBytes] at h
  dsimp only [bind, Except.bind, pure, Except.pure] at h
  generalize hgroup : (if (product b.length 8).tmod c.nbits = 0 then (0 : Int) else 1) = left at h
  have hleft : left ≤ 1 := by
    subst hgroup
    split <;> decide
  cases halloc : alloc ((product b.length 8).tdiv c.nbits + left) with
  | error e => rw [halloc] at h; cases h
  | ok out =>
    rw [halloc] at h
    dsimp only at h
    split at h
    · cases h
    next wrote hwrite =>
      have he : e.length = wrote.1.length := by
        split at h
        · cases h
          exact List.length_set
        · cases h
          rfl
      rw [he, write_length hwrite, length_of_alloc halloc]
      exact Int.add_le_add_left hleft _

/-- The size that wraps around is too small. -/
theorem encodeBytes_ne {c : BaseCode} (hpos : 0 < c.nbits) (hnbits : c.nbits ≤ 8) {b : Bytes} (hb : ¬ b.length < 2 ^ 28) :
    c.encodeBytes b ≠ .ok (c.encoded b) := by
  intro h
  have hlength := encodeBytes_length h
  have hwraps := @product_wraps b.length (by omega)
  have hquotient := Int.tdiv_mul_le (product b.length 8) (show (c.nbits : Int) ≠ 0 by omega)
  have hencoded : b.length * 8 ≤ (c.encoded b).length * c.nbits := by
    have hdiv := Nat.div_add_mod' (b.length * 8 + (c.nbits - 1)) c.nbits
    have hmod := Nat.mod_lt (b.length * 8 + (c.nbits - 1)) hpos
    rw [encoded, List.length_map, paddedGroups, length_groups, length_bitsOf]
    omega
  have hencoded : ((b.length * 8 : Nat) : Int) ≤ ((c.encoded b).length : Int) * c.nbits := by exact_mod_cast hencoded
  have hbound : ((c.encoded b).length : Int) * c.nbits ≤ ((product b.length 8).tdiv c.nbits + 1) * c.nbits :=
    Int.mul_le_mul_of_nonneg_right hlength (by omega)
  have hround : (product b.length 8).tdiv c.nbits * c.nbits ≤ product b.length 8 + 8 := by
    refine hquotient.trans ?_
    split <;> omega
  rw [Int.add_mul, Int.one_mul] at hbound
  generalize product b.length 8 = size at *
  omega

end BaseCode

/-! ## `Base64` -/

namespace Base64

open BaseCode

theorem dictionary_bytes : Dictionary BYTES 6 := ⟨by decide, by decide, by decide, by decide +kernel⟩

theorem dictionary_urlBytes : Dictionary URL_BYTES 6 := ⟨by decide, by decide, by decide, by decide +kernel⟩

theorem cutEnd_append {e : Bytes} (he : UInt8.ofNat '='.toNat ∉ e) (n : Nat) :
    cutEnd (e ++ List.replicate n (.ofNat '='.toNat)) = e := by
  have hkeep : e.reverse.dropWhile (fun b => b == .ofNat '='.toNat) = e.reverse := by
    cases hrev : e.reverse with
    | nil => rfl
    | cons x rest =>
      have hx : x ∈ e := List.mem_reverse.1 (hrev ▸ List.mem_cons_self)
      have hne : (x == .ofNat '='.toNat) = false := beq_false_of_ne fun h => he (h ▸ hx)
      rw [List.dropWhile_cons, hne, if_neg Bool.false_ne_true]
  have hpad : (List.replicate n (UInt8.ofNat '='.toNat) ++ e.reverse).dropWhile (fun b => b == .ofNat '='.toNat) =
      e.reverse := by
    induction n with
    | zero => exact hkeep
    | succ n ih => rw [List.replicate_succ, List.cons_append, List.dropWhile_cons, beq_self_eq_true, if_pos rfl, ih]
  rw [cutEnd, List.reverse_append, List.reverse_replicate, hpad, List.reverse_reverse]

/-- Encoding adds nothing but `=`. -/
theorem encodeWith_eq {base : Bytes} (h : Dictionary base 6) {b : Bytes} (hb : b.length < 2 ^ 28) (complement : Bool) :
    ∃ n, encodeWith base b complement = .ok (encoded ⟨base, 6⟩ b ++ List.replicate n (.ofNat '='.toNat)) ∧
      (complement = false → n = 0) := by
  have hencode := @encodeBytes_eq ⟨base, 6⟩ h.pos h.le b hb
  have hrun : encodeWith base b complement = .ok (if complement then
      match b.length % 3 with
      | 1 => encoded ⟨base, 6⟩ b ++ ofString "=="
      | 2 => encoded ⟨base, 6⟩ b ++ ofString "="
      | _ => encoded ⟨base, 6⟩ b
    else encoded ⟨base, 6⟩ b) := by
    rw [encodeWith, new_eq h]
    dsimp only [bind, Except.bind, pure, Except.pure]
    rw [hencode]
  rw [hrun]
  cases complement with
  | false => exact ⟨0, by rw [List.replicate_zero, List.append_nil]; rfl, fun _ => rfl⟩
  | true =>
    rw [if_pos rfl]
    split
    · exact ⟨2, rfl, nofun⟩
    · exact ⟨1, rfl, nofun⟩
    · exact ⟨0, by rw [List.replicate_zero, List.append_nil], nofun⟩

theorem decodeWith_encodeWith {base : Bytes} (h : Dictionary base 6) (hpad : UInt8.ofNat '='.toNat ∉ base) {b : Bytes}
    (hb : b.length < 2 ^ 28) (complement : Bool) :
    ∃ str, encodeWith base b complement = .ok str ∧ decodeWith base str complement = .ok b := by
  obtain ⟨n, hencode, hn⟩ := encodeWith_eq h hb complement
  refine ⟨_, hencode, ?_⟩
  have hnotMem : UInt8.ofNat '='.toNat ∉ encoded ⟨base, 6⟩ b := by
    intro hmem
    obtain ⟨g, hg, hchar⟩ := List.mem_map.1 hmem
    have hlt := ofHighFirst_lt g
    rw [length_of_mem_paddedGroups h.pos _ g hg, ← h.length] at hlt
    rw [char, List.getD_eq_getElem _ _ hlt] at hchar
    exact hpad (hchar ▸ List.getElem_mem hlt)
  have hcut : (if complement then cutEnd (encoded ⟨base, 6⟩ b ++ List.replicate n (.ofNat '='.toNat))
      else encoded ⟨base, 6⟩ b ++ List.replicate n (.ofNat '='.toNat)) = encoded ⟨base, 6⟩ b := by
    cases complement with
    | true => exact cutEnd_append hnotMem n
    | false =>
      rw [hn rfl, List.replicate_zero, List.append_nil]
      rfl
  rw [decodeWith]
  dsimp only [bind, Except.bind]
  rw [hcut, new_eq h]
  exact decodeBytes_encoded h hb

/-- `decode` undoes `encode`, and `urlDecode` undoes `urlEncode`, with and without complement. -/
def Undoes (b : Bytes) : Prop := ∀ complement,
  (∃ str, encode b complement = .ok str ∧ decode str complement = .ok b) ∧
  (∃ str, urlEncode b complement = .ok str ∧ urlDecode str complement = .ok b)

theorem undoes {b : Bytes} (hb : b.length < 2 ^ 28) : Undoes b := fun complement =>
  ⟨decodeWith_encodeWith dictionary_bytes (by decide +kernel) hb complement,
    decodeWith_encodeWith dictionary_urlBytes (by decide +kernel) hb complement⟩

end Base64

namespace BaseCode

/-- The bytes are encoded as the characters of their groups of bits, and decoding gives them back. -/
def RoundTrip (base b : Bytes) : Prop :=
  ∃ c, new base = .ok c ∧ c.encodeBytes b = .ok (c.encoded b) ∧ c.decodeBytes (c.encoded b) = .ok b

/-- The round trip is right for bytes of less than `2 ^ 28`, and for no others: their bits are more than `Int` counts. -/
theorem roundTrip_iff {base : Bytes} {k : Nat} (h : Dictionary base k) (b : Bytes) :
    RoundTrip base b ∧ Base64.Undoes b ↔ b.length < 2 ^ 28 := by
  constructor
  · rintro ⟨⟨c, hc, hencode, -⟩, -⟩
    rw [new_eq h] at hc
    cases hc
    by_contra hb
    exact encodeBytes_ne h.pos h.le hb hencode
  · intro hb
    exact ⟨⟨⟨base, k⟩, new_eq h, encodeBytes_eq h.pos h.le hb, decodeBytes_encoded h hb⟩, Base64.undoes hb⟩

/-- `roundTrip_iff` at three bytes in base 64. -/
theorem roundTrip_iff_three : RoundTrip Base64.BYTES [72, 97, 120] ∧ Base64.Undoes [72, 97, 120] :=
  (roundTrip_iff Base64.dictionary_bytes [72, 97, 120]).2 (by decide)

/-- The bits of `2 ^ 28` bytes are a negative `Int`. -/
theorem encodeBytes_wraps : ¬ ∀ (base b : Bytes) (k : Nat), Dictionary base k → RoundTrip base b ∧ Base64.Undoes b := by
  intro h
  obtain ⟨⟨c, hc, hencode, -⟩, -⟩ := h Base64.BYTES (List.replicate (2 ^ 28) 0) 6 Base64.dictionary_bytes
  rw [new_eq Base64.dictionary_bytes] at hc
  cases hc
  exact encodeBytes_ne (by decide) (by decide) (by rw [List.length_replicate]; exact Nat.lt_irrefl _) hencode

end BaseCode

end EvilHaxe.Crypto
