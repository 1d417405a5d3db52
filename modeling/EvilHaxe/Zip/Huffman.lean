/-
`HuffTools` of `haxe.zip.Huffman`: from the lengths of the codes to a tree, and from the tree to tables. `Int` has 32
bits; where that matters the remainder is written out.
-/
import Mathlib.Data.List.Basic
import Mathlib.Data.Nat.Bitwise

namespace EvilHaxe.Zip

inductive Huffman where
  | found (i : Int)
  | needBit (left right : Huffman)
  | needBits (n : Nat) (table : List Huffman)

namespace HuffTools

inductive Thrown where
  | assert | invalidHuffman
deriving DecidableEq

/-- What is thrown. -/
def Thrown.message : Thrown → String
  | .assert => "assert"
  | .invalidHuffman => "Invalid huffman"

/-! ## Tables -/

def treeDepth : Huffman → Except Thrown Nat
  | .found _ => .ok 0
  | .needBits _ _ => .error .assert
  | .needBit a b => do
    let da ← treeDepth a
    let db ← treeDepth b
    return 1 + if da < db then da else db

def isNeedBit : Huffman → Bool
  | .needBit _ _ => true
  | _ => false

theorem isNeedBit_of_treeDepth {t : Huffman} {d : Nat} (h : treeDepth t = .ok (d + 1)) : isNeedBit t = true := by
  cases t with
  | found i => cases h
  | needBit a b => rfl
  | needBits n table => cases h

mutual

def treeCompress (t : Huffman) : Except Thrown Huffman :=
  match _ : treeDepth t with
  | .error e => .error e
  | .ok 0 => .ok t
  | .ok 1 =>
    match t with
    | .needBit a b => do
      let a' ← treeCompress a
      let b' ← treeCompress b
      return .needBit a' b'
    | _ => .error .assert
  | .ok (d + 2) => do
    let table ← treeWalk (List.replicate (2 ^ (d + 2)) (.found (-1))) 0 0 (d + 2) t
    return .needBits (d + 2) table
termination_by (sizeOf t, 1)
decreasing_by
  · exact Prod.Lex.left _ _ (by rw [Huffman.needBit.sizeOf_spec]; omega)
  · exact Prod.Lex.left _ _ (by rw [Huffman.needBit.sizeOf_spec]; omega)
  · have hneed := isNeedBit_of_treeDepth (by assumption)
    exact Prod.Lex.right _ (by simp [hneed])

/-- `treeWalk`, which returns the table it has written to. -/
def treeWalk (table : List Huffman) (p cd d : Nat) (t : Huffman) : Except Thrown (List Huffman) :=
  match t with
  | .needBit a b =>
    if d > 0 then do
      let table' ← treeWalk table p (cd + 1) (d - 1) a
      treeWalk table' (p ||| 1 <<< cd) (cd + 1) (d - 1) b
    else do
      let t' ← treeCompress (.needBit a b)
      return table.set p t'
  | .found i => do
    let t' ← treeCompress (.found i)
    return table.set p t'
  | .needBits n tbl => do
    let t' ← treeCompress (.needBits n tbl)
    return table.set p t'
termination_by (sizeOf t, if isNeedBit t && decide (d > 0) then 0 else 2)
decreasing_by
  · exact Prod.Lex.left _ _ (by rw [Huffman.needBit.sizeOf_spec]; omega)
  · exact Prod.Lex.left _ _ (by rw [Huffman.needBit.sizeOf_spec]; omega)
  · exact Prod.Lex.right _ (by rw [if_neg (by simp; omega)]; decide)
  · exact Prod.Lex.right _ (by simp [isNeedBit])
  · exact Prod.Lex.right _ (by simp [isNeedBit])

end

/-! ## The tree -/

/-- The map from the numbers of codes to symbols. -/
abbrev IntMap := Nat → Option Nat

def IntMap.set (bits : IntMap) (key value : Nat) : IntMap := fun k => if k = key then some value else bits k

/-- `(v << 5) | len` -/
def index (v len : Nat) : Nat := (v <<< 5 ||| len) % 2 ^ 32

def treeMake (bits : IntMap) (maxbits v len : Nat) : Except Thrown Huffman :=
  if maxbits < len then .error .invalidHuffman
  else
    match bits (index v len) with
    | some i => .ok (.found i)
    | none => do
      let v' := (v <<< 1) % 2 ^ 32
      let left ← treeMake bits maxbits v' (len + 1)
      let right ← treeMake bits maxbits (v' ||| 1) (len + 1)
      return .needBit left right
termination_by maxbits + 1 - len

/-- The lengths that `make` looks at. -/
def lengthsAt (lengths : List Nat) (pos nlengths : Nat) : List Nat :=
  (List.range nlengths).map fun i => lengths.getD (i + pos) 0

/-- The first loop of `make`. -/
def countLoop (maxbits : Nat) : List Nat → List Nat → Except Thrown (List Nat)
  | [], counts => .ok counts
  | p :: ls, counts => if maxbits ≤ p then .error .invalidHuffman else countLoop maxbits ls (counts.modify p (· + 1))

/-- The second loop: the first code of each length. -/
def codeLoop (counts : List Nat) : Nat → Nat → Nat → List Nat → List Nat
  | 0, _, _, tmp => tmp
  | rounds + 1, i, code, tmp =>
    let code := ((code + counts.getD i 0) <<< 1) % 2 ^ 32
    codeLoop counts rounds (i + 1) code (tmp.set i code)

/-- The third loop: each symbol takes the next code of its length. -/
def assignLoop : Nat → List Nat → List Nat → IntMap → IntMap
  | _, [], _, bits => bits
  | i, l :: ls, tmp, bits =>
    if l ≠ 0 then
      let n := tmp.getD (l - 1) 0
      assignLoop (i + 1) ls (tmp.set (l - 1) ((n + 1) % 2 ^ 32)) (bits.set (index n l) i)
    else assignLoop (i + 1) ls tmp bits

def make (lengths : List Nat) (pos nlengths maxbits : Nat) : Except Thrown Huffman :=
  if nlengths = 1 then .ok (.needBit (.found 0) (.found 0))
  else if 32 < maxbits then .error .invalidHuffman
  else do
    let ls := lengthsAt lengths pos nlengths
    let counts ← countLoop maxbits ls (List.replicate maxbits 0)
    let tmp := codeLoop counts (maxbits - 2) 1 0 (List.replicate maxbits 0)
    let bits := assignLoop 0 ls tmp fun _ => none
    let left ← treeMake bits maxbits 0 1
    let right ← treeMake bits maxbits 1 1
    treeCompress (.needBit left right)

end HuffTools

/-! How `haxe.zip.InflateImpl` reads bits and codes. No table is indexed by more than 16 bits, so the word `bits` never leaves
the range of `Int`. -/

/-- The fields of `InflateImpl` that reading touches. -/
structure InflateImpl where
  nbits : Nat
  bits : Nat
  input : List UInt8

namespace InflateImpl

/-- What ends the reading: the end of the input, or a switch over `null`. -/
inductive Thrown where
  | eof | noTree
deriving DecidableEq

/-- `input.readByte()` -/
def readByte : List UInt8 → Except Thrown (UInt8 × List UInt8)
  | [] => .error .eof
  | b :: input => .ok (b, input)

/-- The loop of `getBits`. -/
def fill (n nbits bits : Nat) : List UInt8 → Except Thrown InflateImpl
  | [] => if nbits < n then .error .eof else .ok ⟨nbits, bits, []⟩
  | b :: input => if nbits < n then fill n (nbits + 8) (bits ||| b.toNat <<< nbits) input else .ok ⟨nbits, bits, b :: input⟩

def getBits (n : Nat) (s : InflateImpl) : Except Thrown (Nat × InflateImpl) := do
  let s ← fill n s.nbits s.bits s.input
  return (s.bits &&& (1 <<< n - 1), ⟨s.nbits - n, s.bits >>> n, s.input⟩)

def getBit (s : InflateImpl) : Except Thrown (Bool × InflateImpl) := do
  let s ← if s.nbits = 0 then do
      let (b, input) ← readByte s.input
      pure ⟨8, b.toNat, input⟩
    else pure s
  return (s.bits &&& 1 == 1, ⟨s.nbits - 1, s.bits >>> 1, s.input⟩)

def applyHuffman (h : Huffman) (s : InflateImpl) : Except Thrown (Int × InflateImpl) :=
  match h with
  | .found n => .ok (n, s)
  | .needBit a b => do
    let (bit, s) ← getBit s
    if bit then applyHuffman b s else applyHuffman a s
  | .needBits n tbl => do
    let (i, s) ← getBits n s
    match _ : tbl[i]? with
    | some h => applyHuffman h s
    | none => .error .noTree
termination_by sizeOf h
decreasing_by
  · rw [Huffman.needBit.sizeOf_spec]
    omega
  · rw [Huffman.needBit.sizeOf_spec]
    omega
  · rename_i hget
    have hsize := List.sizeOf_lt_of_mem (List.mem_of_getElem? hget)
    simp
    omega

end InflateImpl

end EvilHaxe.Zip
