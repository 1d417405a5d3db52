/-
`haxe.io.BytesInput`, as it is on the targets that have no branch of their own. Its position counts from the start of the
bytes, and the position that is assigned from the start of the window: it is a cursor where the two are one.
-/
import Mathlib.Data.List.Basic

namespace EvilHaxe.Io

structure BytesInput where
  b : List UInt8
  pos : Int
  len : Int
  totlen : Int
  deriving DecidableEq

/-- What a call ends with: a result, or what it throws. -/
inductive Outcome where
  | byte (c : UInt8)
  | bytes (buf : List UInt8) (len : Int)
  | position (p : Int)
  | eof
  | outsideBounds
  deriving DecidableEq

/-- The constructor, with both optional arguments; it throws `OutsideBounds` where there is no window. -/
def BytesInput.new (b : List UInt8) (pos len : Option Int) : Option BytesInput :=
  let pos := pos.getD 0
  let len := len.getD (b.length - pos)
  if pos < 0 ∨ len < 0 ∨ pos + len > b.length then none else some { b := b, pos := pos, len := len, totlen := len }

namespace BytesInput

def getPosition (s : BytesInput) : Int := s.pos

def getLength (s : BytesInput) : Int := s.totlen

def setPosition (s : BytesInput) (p : Int) : Outcome × BytesInput :=
  let p := if p < 0 then 0 else if p > s.getLength then s.getLength else p
  (.position p, { s with len := s.totlen - p, pos := p })

/-- An access to the bytes; outside of them there is nothing. -/
def get (s : BytesInput) (i : Int) : Option UInt8 := if 0 ≤ i then s.b[i.toNat]? else none

def readByte (s : BytesInput) : Option (Outcome × BytesInput) :=
  if s.len = 0 then some (.eof, s)
  else do
    let c ← s.get s.pos
    some (.byte c, { s with len := s.len - 1, pos := s.pos + 1 })

/-- The loop that copies `n` bytes to `buf` from `pos` on. -/
def copy (s : BytesInput) (pos : Int) : Nat → List UInt8 → Option (List UInt8)
  | 0, buf => some buf
  | n + 1, buf => do
    let buf ← copy s pos n buf
    let c ← s.get (s.pos + n)
    some (buf.set (pos + n).toNat c)

def readBytes (s : BytesInput) (buf : List UInt8) (pos len : Int) : Option (Outcome × BytesInput) :=
  if pos < 0 ∨ len < 0 ∨ pos + len > buf.length then some (.outsideBounds, s)
  else if s.len = 0 ∧ len > 0 then some (.eof, s)
  else do
    let len := if s.len < len then s.len else len
    let buf ← s.copy pos len.toNat buf
    some (.bytes buf len, { s with pos := s.pos + len, len := s.len - len })

/-- The calls a program can make. -/
inductive Call where
  | readByte
  | readBytes (buf : List UInt8) (pos len : Int)
  | setPosition (p : Int)

def call (s : BytesInput) : Call → Option (Outcome × BytesInput)
  | .readByte => s.readByte
  | .readBytes buf pos len => s.readBytes buf pos len
  | .setPosition p => some (s.setPosition p)

inductive Reachable (s : BytesInput) : BytesInput → Prop
  | start : Reachable s s
  | step {s' s'' : BytesInput} {c : Call} {o : Outcome} (h : Reachable s s') (hcall : s'.call c = some (o, s'')) : Reachable s s''

/-! ## A cursor -/

/-- The bytes that a read has put into the buffer are `n` bytes from `start` on. -/
structure Delivered (b buf buf' : List UInt8) (start pos n : Nat) : Prop where
  length : buf'.length = buf.length
  bytes : ∀ i < n, buf'[pos + i]? = b[start + i]?
  rest : ∀ i, i < pos ∨ pos + n ≤ i → buf'[i]? = buf[i]?

/-- The input is a cursor over the `n` bytes from `p` on: it stands in the window, reads are from where it stands and go on
behind what they have read, `Eof` is thrown at the end of the window, and assigning the position that it has changes nothing. -/
structure Cursor (b : List UInt8) (p n : Int) (s : BytesInput) : Prop where
  bytes : s.b = b
  window : p ≤ s.pos ∧ s.pos ≤ p + n
  readByte : if s.pos < p + n then
      ∃ c s', s.readByte = some (.byte c, s') ∧ b[s.pos.toNat]? = some c ∧ s'.pos = s.pos + 1
    else s.readByte = some (.eof, s)
  readBytes : ∀ (buf : List UInt8) (pos len : Nat), pos + len ≤ buf.length →
    if s.pos < p + n ∨ len = 0 then
      ∃ buf' s', s.readBytes buf pos len = some (.bytes buf' (min (len : Int) (p + n - s.pos)), s') ∧
        Delivered b buf buf' s.pos.toNat pos (min (len : Int) (p + n - s.pos)).toNat ∧ s'.pos = s.pos + min (len : Int) (p + n - s.pos)
    else s.readBytes buf pos len = some (.eof, s)
  setPosition : s.setPosition s.getPosition = (.position s.getPosition, s)

/-- From the first byte on the three counters are one. -/
structure Counts (b : List UInt8) (n : Int) (s : BytesInput) : Prop where
  bytes : s.b = b
  total : s.totlen = n
  sum : s.pos + s.len = n
  pos_nonneg : 0 ≤ s.pos
  len_nonneg : 0 ≤ s.len
  fits : n ≤ b.length

section

variable {b : List UInt8} {n : Int} {s s' : BytesInput}

theorem copy_spec (hpos : 0 ≤ s.pos) {m pos : Nat} {buf : List UInt8} (hfit : pos + m ≤ buf.length) (hin : s.pos.toNat + m ≤ s.b.length) :
    ∃ buf', s.copy pos m buf = some buf' ∧ Delivered s.b buf buf' s.pos.toNat pos m := by
  induction m with
  | zero => exact ⟨buf, rfl, rfl, nofun, fun _ _ => rfl⟩
  | succ m ih =>
    obtain ⟨buf1, hcopy, hlen, hbytes, hrest⟩ := ih (by omega) (by omega)
    have hi : s.pos.toNat + m < s.b.length := by omega
    have hget : s.get (s.pos + m) = some s.b[s.pos.toNat + m] := by
      rw [get, if_pos (by omega), show (s.pos + m).toNat = s.pos.toNat + m by omega, List.getElem?_eq_getElem hi]
    refine ⟨buf1.set (pos + m) s.b[s.pos.toNat + m], ?_, by rw [List.length_set, hlen], fun i him => ?_, fun i him => ?_⟩
    · simp only [copy, hcopy, hget, Option.bind_eq_bind, Option.bind_some]
      congr 2
    · by_cases heq : i = m
      · subst heq
        rw [List.getElem?_set_self (by omega), List.getElem?_eq_getElem hi]
      · rw [List.getElem?_set_ne (by omega), hbytes i (by omega)]
    · rw [List.getElem?_set_ne (by omega), hrest i (by omega)]

theorem Counts.call (h : Counts b n s) {c : Call} {o : Outcome} (hcall : s.call c = some (o, s')) : Counts b n s' := by
  obtain ⟨hb, htotal, hsum, hpos, hlen, hfits⟩ := h
  cases c with
  | readByte =>
    rw [BytesInput.call, BytesInput.readByte] at hcall
    split at hcall
    next =>
      obtain ⟨-, rfl⟩ := Prod.mk.inj (Option.some.inj hcall)
      exact ⟨hb, htotal, hsum, hpos, hlen, hfits⟩
    next hne =>
      obtain ⟨x, -, hx⟩ := Option.bind_eq_some_iff.1 hcall
      obtain ⟨-, rfl⟩ := Prod.mk.inj (Option.some.inj hx)
      refine ⟨hb, htotal, ?_, ?_, ?_, hfits⟩
      · show s.pos + 1 + (s.len - 1) = n
        omega
      · show 0 ≤ s.pos + 1
        omega
      · show 0 ≤ s.len - 1
        omega
  | readBytes buf pos len =>
    rw [BytesInput.call, BytesInput.readBytes] at hcall
    split at hcall
    next =>
      obtain ⟨-, rfl⟩ := Prod.mk.inj (Option.some.inj hcall)
      exact ⟨hb, htotal, hsum, hpos, hlen, hfits⟩
    next hin =>
      split at hcall
      next =>
        obtain ⟨-, rfl⟩ := Prod.mk.inj (Option.some.inj hcall)
        exact ⟨hb, htotal, hsum, hpos, hlen, hfits⟩
      next =>
        obtain ⟨x, -, hx⟩ := Option.bind_eq_some_iff.1 hcall
        obtain ⟨-, rfl⟩ := Prod.mk.inj (Option.some.inj hx)
        have hmin : 0 ≤ (if s.len < len then s.len else len) ∧ (if s.len < len then s.len else len) ≤ s.len := by
          split <;> omega
        generalize (if s.len < len then s.len else len) = m at hmin
        refine ⟨hb, htotal, ?_, ?_, ?_, hfits⟩
        · show s.pos + m + (s.len - m) = n
          omega
        · show 0 ≤ s.pos + m
          omega
        · show 0 ≤ s.len - m
          omega
  | setPosition p =>
    obtain ⟨-, rfl⟩ := Prod.mk.inj (Option.some.inj hcall)
    have hn : 0 ≤ s.totlen := by omega
    have hclamp : 0 ≤ (if p < 0 then 0 else if p > s.getLength then s.getLength else p) ∧
        (if p < 0 then 0 else if p > s.getLength then s.getLength else p) ≤ s.totlen := by
      rw [getLength]
      split
      · omega
      · split <;> omega
    generalize (if p < 0 then 0 else if p > s.getLength then s.getLength else p) = q at hclamp
    refine ⟨hb, htotal, ?_, hclamp.1, ?_, hfits⟩
    · show q + (s.totlen - q) = n
      omega
    · show 0 ≤ s.totlen - q
      omega

theorem Counts.reachable {s0 : BytesInput} (h : Counts b n s0) (hs : Reachable s0 s) : Counts b n s := by
  induction hs with
  | start => exact h
  | step _ hcall ih => exact ih.call hcall

theorem Counts.cursor (h : Counts b n s) : Cursor b 0 n s := by
  obtain ⟨hb, htotal, hsum, hpos, hlen, hfits⟩ := h
  refine ⟨hb, ⟨hpos, by omega⟩, ?_, fun buf pos len hbuf => ?_, ?_⟩
  · split
    next hlt =>
      have hi : s.pos.toNat < b.length := by omega
      have hget : s.get s.pos = some b[s.pos.toNat] := by
        rw [get, if_pos hpos, hb, List.getElem?_eq_getElem hi]
      exact ⟨b[s.pos.toNat], { s with len := s.len - 1, pos := s.pos + 1 },
        by rw [BytesInput.readByte, if_neg (by omega), hget]; rfl, List.getElem?_eq_getElem hi, rfl⟩
    next hge => exact if_pos (by omega)
  · have hmin : min (len : Int) (0 + n - s.pos) = if s.len < len then s.len else (len : Int) := by
      split <;> omega
    have houtside : ¬ ((pos : Int) < 0 ∨ (len : Int) < 0 ∨ (pos : Int) + len > buf.length) := by omega
    have hread := BytesInput.readBytes.eq_def s buf pos len
    rw [if_neg houtside] at hread
    rw [hmin]
    split
    next hlt =>
      rw [if_neg (by omega)] at hread
      generalize hm : (if s.len < len then s.len else (len : Int)) = m
      have hle : 0 ≤ m ∧ m ≤ s.len ∧ m ≤ len := by
        rw [← hm]
        split <;> omega
      obtain ⟨buf', hcopy, hdelivered⟩ := @copy_spec s hpos m.toNat pos buf (by omega) (by rw [hb]; omega)
      rw [hb] at hdelivered
      rw [hm] at hread
      dsimp only at hread
      exact ⟨buf', { s with pos := s.pos + m, len := s.len - m }, by rw [hread, hcopy]; rfl, hdelivered, rfl⟩
    next hge => rw [hread, if_pos (by omega)]
  · have hclamp : (if s.pos < 0 then 0 else if s.pos > s.totlen then s.totlen else s.pos) = s.pos := by
      rw [if_neg (by omega), if_neg (by omega)]
    have hlen' : s.totlen - s.pos = s.len := by omega
    rw [BytesInput.setPosition, getPosition, getLength, hclamp, hlen']

end

end BytesInput

end EvilHaxe.Io
