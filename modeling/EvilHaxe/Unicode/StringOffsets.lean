/-
The offsets that a string of the evaluator remembers (`evalString.ml`): up to two pairs of the index of a code point and of
the byte at which it begins, from which the next access starts.
-/
import EvilHaxe.Unicode.FindSubstring

namespace EvilHaxe.Unicode.EvalString

open Lib.Utf8 UTF8

/-- A pointer of `soffsets`. -/
abbrev Pointer := Int × Int

/-- The step from a pointer over more than one code point, in `get_offset'`. -/
def farOffset (s : List Nat) (cIndex diff bOffset : Int) : Option Int :=
  if diff > 0 then moveForward s diff.toNat bOffset
  -- A big step backwards starts over.
  else if cIndex + diff < 0 then moveForward s cIndex.toNat 0
  else moveBackward s (-diff).toNat bOffset

/-- The step from the only pointer. -/
def stepOffset (s : List Nat) (cIndex diff bOffset : Int) : Option Int :=
  if diff = 0 then some bOffset
  else if diff = 1 then next s bOffset
  else if diff = -1 then prev s bOffset
  else farOffset s cIndex diff bOffset

/-- `get_offset'`: the offset, which of the pointers the caller moves, and the pointers. -/
def getOffset' (s : List Nat) (soffsets : List Pointer) (cIndex : Int) : Option (Int × Nat × List Pointer) :=
  match soffsets with
  | [] => do
    let b ← moveForward s cIndex.toNat 0
    return (b, 0, [(cIndex, b)])
  | [r1] => do
    let diff := cIndex - r1.1
    let b ← stepOffset s cIndex diff r1.2
    if diff > 20 ∨ diff < -20 then return (b, 0, [(cIndex, b), r1]) else return (b, 0, [r1])
  | [r1, r2] => do
    let diff1 := cIndex - r1.1
    let diff2 := cIndex - r2.1
    if diff1 = 0 then return (r1.2, 0, [r1, r2])
    else if diff2 = 0 then return (r2.2, 1, [r1, r2])
    else if diff1 = 1 then return (← next s r1.2, 0, [r1, r2])
    else if diff2 = 1 then return (← next s r2.2, 1, [r1, r2])
    else if diff1 = -1 then return (← prev s r1.2, 0, [r1, r2])
    else if diff2 = -1 then return (← prev s r2.2, 1, [r1, r2])
    else if diff1.natAbs > diff2.natAbs then return (← farOffset s cIndex diff2 r2.2, 1, [r1, r2])
    else return (← farOffset s cIndex diff1 r1.2, 0, [r1, r2])
  | _ => none

def getOffset (s : List Nat) (soffsets : List Pointer) (cIndex : Int) : Option (Int × List Pointer) := do
  let (b, r, soffsets) ← getOffset' s soffsets cIndex
  return (b, soffsets.set r (cIndex, b))

/-- The code at a byte, and how many bytes it takes. A first byte is not below `0xC0`. -/
def codeAt (s : List Nat) (i : Int) : Option (Nat × Nat) := do
  let n ← get s i
  if n < 0x80 then return (n, 1)
  else if n ≤ 0xdf then
    let m0 ← get s (i + 1)
    return ((n - 0xc0) <<< 6 ||| (0x7f &&& m0), 2)
  else if n ≤ 0xef then
    let m0 ← get s (i + 2)
    let m ← get s (i + 1)
    return (((n - 0xe0) <<< 6 ||| (0x7f &&& m)) <<< 6 ||| (0x7f &&& m0), 3)
  else if n ≤ 0xf7 then
    let m0 ← get s (i + 3)
    let m1 ← get s (i + 1)
    let m2 ← get s (i + 2)
    return ((((n - 0xf0) <<< 6 ||| (0x7f &&& m1)) <<< 6 ||| (0x7f &&& m2)) <<< 6 ||| (0x7f &&& m0), 4)
  else if n ≤ 0xfb then
    let m0 ← get s (i + 4)
    let m1 ← get s (i + 1)
    let m2 ← get s (i + 2)
    let m3 ← get s (i + 3)
    return (((((n - 0xf8) <<< 6 ||| (0x7f &&& m1)) <<< 6 ||| (0x7f &&& m2)) <<< 6 ||| (0x7f &&& m3)) <<< 6 ||| (0x7f &&& m0), 5)
  else if n ≤ 0xfd then
    let m0 ← get s (i + 5)
    let m1 ← get s (i + 1)
    let m2 ← get s (i + 2)
    let m3 ← get s (i + 3)
    let m4 ← get s (i + 4)
    return ((((((n - 0xfc) <<< 6 ||| (0x7f &&& m1)) <<< 6 ||| (0x7f &&& m2)) <<< 6 ||| (0x7f &&& m3)) <<< 6 |||
      (0x7f &&& m4)) <<< 6 ||| (0x7f &&& m0), 6)
  else none

def charAt (s : List Nat) (soffsets : List Pointer) (cIndex : Int) : Option (Nat × List Pointer) := do
  let (b, r, soffsets) ← getOffset' s soffsets cIndex
  let (char, diff) ← codeAt s b
  return (char, soffsets.set r (cIndex + 1, b + diff))

/-- `substr`; `create_with_length` of what it cuts out. -/
def substr (s : List Nat) (soffsets : List Pointer) (cIndex cLength : Int) : Option (VString × List Pointer) :=
  if cLength < 0 then some (⟨[], 0⟩, soffsets)
  else do
    let (b1, soffsets) ← getOffset s soffsets cIndex
    let b2 ← move s b1 cLength
    return (⟨(s.drop b1.toNat).take (b2 - b1).toNat, cLength.toNat⟩, soffsets)

/-! ## Accesses -/

inductive Access where
  | charAt (cIndex : Int)
  | getOffset (cIndex : Int)
  | substr (cIndex cLength : Int)

inductive Answer where
  | char (c : Nat)
  | offset (b : Int)
  | string (s : VString)

/-- One access, which leaves other pointers. -/
def Access.run (s : List Nat) (soffsets : List Pointer) : Access → Option (Answer × List Pointer)
  | .charAt c => (EvalString.charAt s soffsets c).map fun r => (.char r.1, r.2)
  | .getOffset c => (EvalString.getOffset s soffsets c).map fun r => (.offset r.1, r.2)
  | .substr c n => (EvalString.substr s soffsets c n).map fun r => (.string r.1, r.2)

/-- Accesses one after another. -/
def runAccesses (s : List Nat) : List Pointer → List Access → Option (List Answer × List Pointer)
  | soffsets, [] => some ([], soffsets)
  | soffsets, access :: rest => do
    let (answer, soffsets) ← access.run s soffsets
    let (answers, soffsets) ← runAccesses s soffsets rest
    return (answer :: answers, soffsets)

/-- The indices of an access are inside the text. -/
def Access.Inside (a : List Char) : Access → Prop
  | .charAt c => 0 ≤ c ∧ c < a.length
  | .getOffset c => 0 ≤ c ∧ c ≤ a.length
  | .substr c n => n < 0 ∨ (0 ≤ c ∧ c + n ≤ a.length)

/-- The answer from the text alone. -/
def Access.answer (a : List Char) : Access → Answer
  | .charAt c => .char ((a[c.toNat]?.map Char.toNat).getD 0)
  | .getOffset c => .offset (Lib.Utf8.offset a c.toNat)
  | .substr c n => .string (if n < 0 then vstring [] else vstring ((a.drop c.toNat).take n.toNat))

/-- At most two pointers, to code points of the text or its end. -/
structure Pointers (a : List Char) (soffsets : List Pointer) : Prop where
  length_le : soffsets.length ≤ 2
  at_code : ∀ r ∈ soffsets, ∃ k : Nat, k ≤ a.length ∧ r = ((k : Int), (Lib.Utf8.offset a k : Int))

/-! ## The offset -/

variable {a : List Char} {l : List Pointer}

theorem moveForward_zero {n : Nat} (h : n ≤ a.length) : moveForward (bytes a) n 0 = some (Lib.Utf8.offset a n : Int) := by
  have hf := @moveForward_offset a n 0 (by omega)
  rwa [Nat.zero_add] at hf

theorem farOffset_eq {k n : Nat} (hk : k ≤ a.length) (hn : n ≤ a.length) :
    farOffset (bytes a) n ((n : Int) - k) (Lib.Utf8.offset a k) = some (Lib.Utf8.offset a n : Int) := by
  rw [farOffset]
  split
  · next hpos =>
    have h := @moveForward_offset a (n - k) k (by omega)
    rw [Nat.add_sub_cancel' (by omega)] at h
    rwa [show ((n : Int) - k).toNat = n - k by omega]
  · next hpos =>
    split
    · exact moveForward_zero hn
    · have h := @moveBackward_offset a (k - n) n (by omega)
      rw [Nat.add_sub_cancel' (by omega)] at h
      rwa [show (-((n : Int) - k)).toNat = k - n by omega]

theorem next_eq {k n : Nat} (hn : n ≤ a.length) (hd : (n : Int) - k = 1) :
    next (bytes a) (Lib.Utf8.offset a k) = some (Lib.Utf8.offset a n : Int) := by
  obtain rfl : n = k + 1 := by omega
  exact next_offset (by omega)

theorem prev_eq {k n : Nat} (hk : k ≤ a.length) (hd : (n : Int) - k = -1) :
    prev (bytes a) (Lib.Utf8.offset a k) = some (Lib.Utf8.offset a n : Int) := by
  obtain rfl : k = n + 1 := by omega
  exact prev_offset (by omega)

theorem stepOffset_eq {k n : Nat} (hk : k ≤ a.length) (hn : n ≤ a.length) :
    stepOffset (bytes a) n ((n : Int) - k) (Lib.Utf8.offset a k) = some (Lib.Utf8.offset a n : Int) := by
  rw [stepOffset]
  split
  · next hd =>
    obtain rfl : n = k := by omega
    rfl
  · split
    · next hd => exact next_eq hn hd
    · split
      · next hd => exact prev_eq hk hd
      · exact farOffset_eq hk hn

theorem Pointers.nil : Pointers a [] := ⟨Nat.zero_le 2, fun _ h => absurd h List.not_mem_nil⟩

/-- A pointer is moved to another code point. -/
theorem Pointers.set (h : Pointers a l) (r : Nat) {k : Nat} (hk : k ≤ a.length) :
    Pointers a (l.set r ((k : Int), (Lib.Utf8.offset a k : Int))) := by
  refine ⟨by rw [List.length_set]; exact h.length_le, fun x hx => ?_⟩
  obtain hx | rfl := List.mem_or_eq_of_mem_set hx
  · exact h.at_code x hx
  · exact ⟨k, hk, rfl⟩

/-- Whatever the pointers are, the offset is that of the code point. -/
theorem getOffset'_spec (h : Pointers a l) {n : Nat} (hn : n ≤ a.length) :
    ∃ r l', getOffset' (bytes a) l n = some ((Lib.Utf8.offset a n : Int), r, l') ∧ Pointers a l' := by
  match l, h with
  | [], _ =>
    refine ⟨0, [((n : Int), (Lib.Utf8.offset a n : Int))], ?_, Nat.le_succ 1, fun r hr => ?_⟩
    · simp only [getOffset', Int.toNat_natCast, moveForward_zero hn]
      rfl
    · exact ⟨n, hn, List.mem_singleton.1 hr⟩
  | [r1], h =>
    obtain ⟨k, hk, rfl⟩ := h.at_code r1 List.mem_cons_self
    simp only [getOffset', stepOffset_eq hk hn, Option.bind_eq_bind, Option.bind_some]
    split
    · refine ⟨0, _, rfl, Nat.le_refl 2, fun r hr => ?_⟩
      obtain rfl | hr := List.mem_cons.1 hr
      · exact ⟨n, hn, rfl⟩
      · exact h.at_code r hr
    · exact ⟨0, _, rfl, h⟩
  | [r1, r2], h =>
    obtain ⟨k1, hk1, rfl⟩ := h.at_code r1 List.mem_cons_self
    obtain ⟨k2, hk2, rfl⟩ := h.at_code r2 (List.mem_cons_of_mem _ List.mem_cons_self)
    simp only [getOffset']
    split
    · next hd =>
      obtain rfl : n = k1 := by omega
      exact ⟨0, _, rfl, h⟩
    split
    · next hd =>
      obtain rfl : n = k2 := by omega
      exact ⟨1, _, rfl, h⟩
    split
    · next hd => exact ⟨0, _, by rw [next_eq hn hd]; rfl, h⟩
    split
    · next hd => exact ⟨1, _, by rw [next_eq hn hd]; rfl, h⟩
    split
    · next hd => exact ⟨0, _, by rw [prev_eq hk1 hd]; rfl, h⟩
    split
    · next hd => exact ⟨1, _, by rw [prev_eq hk2 hd]; rfl, h⟩
    split
    · exact ⟨1, _, by rw [farOffset_eq hk2 hn]; rfl, h⟩
    · exact ⟨0, _, by rw [farOffset_eq hk1 hn]; rfl, h⟩
  | _ :: _ :: _ :: l, h => exact absurd h.length_le (by simp)

/-! ## The code point -/

theorem mask_cont {x : Nat} (h : x < 0x40) : 0x7f &&& (0x80 + x) = x := by
  rw [Nat.and_comm, Nat.and_two_pow_sub_one_eq_mod _ 7]
  omega

theorem shift_or {n x : Nat} (h : x < 0x40) : n <<< 6 ||| x = n * 64 + x := by
  rw [Nat.shiftLeft_eq, Nat.mul_comm, ← Nat.two_pow_add_eq_or_of_lt h, Nat.mul_comm]

theorem codeAt_offset {k : Nat} (hk : k < a.length) :
    codeAt (bytes a) (Lib.Utf8.offset a k) =
      some (a[k].toNat, Lib.Utf8.offset a (k + 1) - Lib.Utf8.offset a k) := by
  have hc : ∃ x c y, a = x ++ c :: y ∧ x.length = k ∧ a[k] = c := by
    obtain ⟨x, c, y, rfl, rfl⟩ := split_at hk
    refine ⟨x, c, y, rfl, rfl, ?_⟩
    rw [List.getElem_append_right (Nat.le_refl _)]
    simp only [Nat.sub_self, List.getElem_cons_zero]
  obtain ⟨x, c, y, rfl, rfl, hget⟩ := hc
  have at_ := getElem?_at x c y
  have hs := shape_encode c
  rw [hget, offset_snoc, offset_append, Nat.add_sub_cancel_left]
  generalize encode c = s at hs at_
  generalize bytes (x ++ c :: y) = t at at_
  generalize (bytes x).length = i at at_
  have read (j : Nat) : get t ((i : Int) + j) = (s ++ bytes y)[j]? := by
    rw [← at_ j]
    exact get_cast t (i + j)
  have r0 : get t i = (s ++ bytes y)[0]? := read 0
  have r1 : get t ((i : Int) + 1) = (s ++ bytes y)[1]? := read 1
  have r2 : get t ((i : Int) + 2) = (s ++ bytes y)[2]? := read 2
  have r3 : get t ((i : Int) + 3) = (s ++ bytes y)[3]? := read 3
  rw [codeAt, r0]
  cases hs with
  | one h =>
    simp only [List.cons_append, List.getElem?_cons_zero, Option.bind_eq_bind, Option.bind_some, if_pos h]
    rfl
  | two hn h2 hx h =>
    simp only [List.cons_append, List.getElem?_cons_zero, Option.bind_eq_bind, Option.bind_some, r1,
      List.getElem?_cons_succ]
    rw [if_neg (by omega), if_pos (by omega), mask_cont hx, Nat.add_sub_cancel_left, shift_or hx, ← h]
    rfl
  | three hn hx hy hbig h =>
    simp only [List.cons_append, List.getElem?_cons_zero, Option.bind_eq_bind, Option.bind_some, r1, r2,
      List.getElem?_cons_succ]
    rw [if_neg (by omega), if_neg (by omega), if_pos (by omega), mask_cont hx, mask_cont hy, Nat.add_sub_cancel_left,
      shift_or hx, shift_or hy, ← h]
    rfl
  | four hn hx hy hz hbig h =>
    simp only [List.cons_append, List.getElem?_cons_zero, Option.bind_eq_bind, Option.bind_some, r1, r2, r3,
      List.getElem?_cons_succ]
    rw [if_neg (by omega), if_neg (by omega), if_neg (by omega), if_pos (by omega), mask_cont hx, mask_cont hy,
      mask_cont hz, Nat.add_sub_cancel_left, shift_or hx, shift_or hy, shift_or hz, ← h]
    rfl

/-! ## Accesses -/

theorem offset_le_succ {k : Nat} (hk : k < a.length) : Lib.Utf8.offset a k ≤ Lib.Utf8.offset a (k + 1) := by
  rw [offset_succ (List.getElem?_eq_getElem hk)]
  exact Nat.le_add_right _ _

/-- What lies between two code points. -/
theorem bytes_between (a : List Char) (k n : Nat) :
    ((bytes a).drop (Lib.Utf8.offset a k)).take (Lib.Utf8.offset a (k + n) - Lib.Utf8.offset a k) =
      bytes ((a.drop k).take n) := by
  have hoff : Lib.Utf8.offset a (k + n) = Lib.Utf8.offset a k + (bytes ((a.drop k).take n)).length := by
    rw [Lib.Utf8.offset, Lib.Utf8.offset, ← List.length_append, ← bytes_append, List.take_add]
  have hsplit : bytes (a.drop k) = bytes ((a.drop k).take n) ++ bytes ((a.drop k).drop n) := by
    rw [← bytes_append, List.take_append_drop]
  rw [drop_bytes_offset, hoff, Nat.add_sub_cancel_left, hsplit, List.take_left]

theorem run_access (h : Pointers a l) {access : Access} (hin : access.Inside a) :
    ∃ l', access.run (bytes a) l = some (access.answer a, l') ∧ Pointers a l' := by
  cases access with
  | charAt c =>
    obtain ⟨h0, hlt⟩ := hin
    obtain ⟨k, rfl⟩ := Int.eq_ofNat_of_zero_le h0
    have hk : k < a.length := by omega
    obtain ⟨r, l', he, hl'⟩ := getOffset'_spec h (Nat.le_of_lt hk)
    have hle := offset_le_succ hk
    have hnext : ((Lib.Utf8.offset a k : Int) + (Lib.Utf8.offset a (k + 1) - Lib.Utf8.offset a k : Nat)) =
        (Lib.Utf8.offset a (k + 1) : Int) := by omega
    refine ⟨_, ?_, hl'.set r (Nat.succ_le_of_lt hk)⟩
    simp only [Access.run, EvalString.charAt, he, Option.bind_eq_bind, Option.bind_some, codeAt_offset hk, hnext,
      Access.answer, Int.toNat_natCast, List.getElem?_eq_getElem hk, Option.map_some, Option.getD_some]
    rfl
  | getOffset c =>
    obtain ⟨h0, hle⟩ := hin
    obtain ⟨k, rfl⟩ := Int.eq_ofNat_of_zero_le h0
    have hk : k ≤ a.length := by omega
    obtain ⟨r, l', he, hl'⟩ := getOffset'_spec h hk
    refine ⟨_, ?_, hl'.set r hk⟩
    simp only [Access.run, EvalString.getOffset, he, Option.bind_eq_bind, Option.bind_some, Access.answer,
      Int.toNat_natCast]
    rfl
  | substr c n =>
    by_cases hn : n < 0
    · refine ⟨l, ?_, h⟩
      simp only [Access.run, EvalString.substr, if_pos hn, Access.answer]
      rfl
    · obtain hneg | ⟨h0, hle⟩ := hin
      · exact absurd hneg hn
      obtain ⟨k, rfl⟩ := Int.eq_ofNat_of_zero_le h0
      obtain ⟨m, rfl⟩ := Int.eq_ofNat_of_zero_le (Int.not_lt.1 hn)
      have hkm : k + m ≤ a.length := by omega
      obtain ⟨r, l', he, hl'⟩ := getOffset'_spec h (show k ≤ a.length by omega)
      have hmove : move (bytes a) (Lib.Utf8.offset a k) m = some (Lib.Utf8.offset a (k + m) : Int) := by
        rw [move, if_pos (by omega), Int.toNat_natCast, moveForward_offset hkm]
      have hcut := bytes_between a k m
      have hdiff : ((Lib.Utf8.offset a (k + m) : Int) - Lib.Utf8.offset a k).toNat =
          Lib.Utf8.offset a (k + m) - Lib.Utf8.offset a k := by omega
      have hlen : ((a.drop k).take m).length = m := by
        rw [List.length_take, List.length_drop]
        omega
      refine ⟨_, ?_, hl'.set r (show k ≤ a.length by omega)⟩
      simp only [Access.run, EvalString.substr, if_neg hn, EvalString.getOffset, he, Option.bind_eq_bind,
        Option.bind_some, hmove, Access.answer, Int.toNat_natCast, hdiff, hcut, vstring, hlen, Option.map_some, Option.pure_def]

/-- Accesses inside a text answer as the text does, whatever offsets the earlier ones have left. -/
theorem runAccesses_pointers (h : Pointers a l) {accesses : List Access} (hin : ∀ access ∈ accesses, access.Inside a) :
    ∃ l', runAccesses (bytes a) l accesses = some (accesses.map (Access.answer a), l') ∧ Pointers a l' := by
  induction accesses generalizing l with
  | nil => exact ⟨l, rfl, h⟩
  | cons access rest ih =>
    obtain ⟨l1, h1, hl1⟩ := run_access h (hin access List.mem_cons_self)
    obtain ⟨l2, h2, hl2⟩ := ih hl1 fun x hx => hin x (List.mem_cons_of_mem _ hx)
    refine ⟨l2, ?_, hl2⟩
    rw [runAccesses, h1]
    simp only [Option.bind_eq_bind, Option.bind_some, h2]
    rfl

/-- From a new string on, every sequence of accesses inside it answers as the text does. -/
theorem accesses_transparent (a : List Char) (accesses : List Access) (hin : ∀ access ∈ accesses, access.Inside a) :
    (runAccesses (bytes a) [] accesses).map Prod.fst = some (accesses.map (Access.answer a)) := by
  obtain ⟨l', h, -⟩ := runAccesses_pointers Pointers.nil hin
  rw [h]
  rfl

theorem accesses_transparent_two :
    (∀ access ∈ [Access.charAt 1, Access.substr 0 2], access.Inside ['é', 'b']) ∧
      (runAccesses (bytes ['é', 'b']) [] [.charAt 1, .substr 0 2]).map Prod.fst =
        some ([Access.charAt 1, Access.substr 0 2].map (Access.answer ['é', 'b'])) := by
  have hin : ∀ access ∈ [Access.charAt 1, Access.substr 0 2], access.Inside ['é', 'b'] := by
    intro access h
    obtain rfl | h := List.mem_cons.1 h
    · exact ⟨by decide, by decide⟩
    · obtain rfl := List.mem_singleton.1 h
      exact .inr ⟨by decide, by decide⟩
  exact ⟨hin, accesses_transparent _ _ hin⟩

end EvilHaxe.Unicode.EvalString
