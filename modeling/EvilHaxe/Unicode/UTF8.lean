/-
Stepping over the code points of a string: `next`, `prev` and `move` of `uTF8.ml`. `none` is an access outside the string,
or `invalid_arg`.
-/
import EvilHaxe.Lib.Utf8

namespace EvilHaxe.Unicode.UTF8

open Lib.Utf8

/-- `s.[i]`. -/
def get (s : List Nat) (i : Int) : Option Nat := if i < 0 then none else s[i.toNat]?

/-- The byte does not continue a code point. -/
def isHead (n : Nat) : Bool := n < 0x80 || n ≥ 0xc2

/-- `search_head`, over the bytes from an index on. -/
def searchHead : List Nat → Nat → Nat
  | [], i => i
  | n :: s, i => if isHead n then i else searchHead s (i + 1)

def next (s : List Nat) (i : Int) : Option Int := do
  let n ← get s i
  if n < 0x80 then return i + 1
  else if n < 0xc0 then return searchHead (s.drop (i.toNat + 1)) (i.toNat + 1)
  else if n ≤ 0xdf then return i + 2
  else if n ≤ 0xef then return i + 3
  else if n ≤ 0xf7 then return i + 4
  else if n ≤ 0xfb then return i + 5
  else if n ≤ 0xfd then return i + 6
  else none

/-- `search_head_backward`, from the index before the given one. -/
def searchHeadBackward (s : List Nat) : Nat → Option Int
  | 0 => some (-1)
  | i + 1 => do
    let n ← s[i]?
    if isHead n then return i else searchHeadBackward s i

def prev (s : List Nat) (i : Int) : Option Int := searchHeadBackward s i.toNat

/-- `move` forward. -/
def moveForward (s : List Nat) : Nat → Int → Option Int
  | 0, i => some i
  | n + 1, i => do moveForward s n (← next s i)

/-- `move` backward. -/
def moveBackward (s : List Nat) : Nat → Int → Option Int
  | 0, i => some i
  | n + 1, i => do moveBackward s n (← prev s i)

def move (s : List Nat) (i n : Int) : Option Int :=
  if n ≥ 0 then moveForward s n.toNat i else moveBackward s (-n).toNat i

/-! ## At the code points of a text -/

variable {a : List Char}

theorem get_cast (s : List Nat) (i : Nat) : get s i = s[i]? := by
  rw [get, if_neg (by omega), Int.toNat_natCast]

/-- The bytes from a code point on. -/
theorem getElem?_at (x : List Char) (c : Char) (y : List Char) (k : Nat) :
    (bytes (x ++ c :: y))[(bytes x).length + k]? = (encode c ++ bytes y)[k]? := by
  rw [bytes_append, bytes_cons, List.getElem?_append_right (Nat.le_add_right _ _), Nat.add_sub_cancel_left]

/-- The step over the bytes of one code point. -/
theorem next_at (x : List Char) (c : Char) (y : List Char) :
    next (bytes (x ++ c :: y)) (bytes x).length = some (((bytes x).length + (encode c).length : Nat) : Int) := by
  have h0 := getElem?_at x c y 0
  have hs := shape_encode c
  rw [Nat.add_zero] at h0
  rw [next, get_cast, h0]
  generalize encode c = s at hs
  cases hs with
  | one h =>
    simp only [List.cons_append, List.getElem?_cons_zero, Option.bind_eq_bind, Option.bind_some, if_pos h]
    rfl
  | two hn h2 hx h =>
    simp only [List.cons_append, List.getElem?_cons_zero, Option.bind_eq_bind, Option.bind_some]
    rw [if_neg (by omega), if_neg (by omega), if_pos (by omega)]
    rfl
  | three hn hx hy hbig h =>
    simp only [List.cons_append, List.getElem?_cons_zero, Option.bind_eq_bind, Option.bind_some]
    rw [if_neg (by omega), if_neg (by omega), if_neg (by omega), if_pos (by omega)]
    rfl
  | four hn hx hy hz hbig h =>
    simp only [List.cons_append, List.getElem?_cons_zero, Option.bind_eq_bind, Option.bind_some]
    rw [if_neg (by omega), if_neg (by omega), if_neg (by omega), if_neg (by omega), if_pos (by omega)]
    rfl

theorem next_offset {i : Nat} (h : i < a.length) : next (bytes a) (offset a i) = some (offset a (i + 1) : Int) := by
  obtain ⟨x, c, y, rfl, rfl⟩ := split_at h
  rw [offset_append, offset_snoc, next_at]

/-- Going back over what continues a code point. -/
theorem searchHeadBackward_back {s : List Nat} (i k : Nat) (hcont : ∀ j, i < j → j ≤ i + k → ∃ n, s[j]? = some n ∧ isHead n = false)
    (hhead : ∃ n, s[i]? = some n ∧ isHead n = true) : searchHeadBackward s (i + k + 1) = some (i : Int) := by
  induction k with
  | zero =>
    obtain ⟨n, hn, hh⟩ := hhead
    rw [Nat.add_zero, searchHeadBackward, hn]
    exact if_pos hh
  | succ k ih =>
    obtain ⟨n, hn, hh⟩ := hcont (i + (k + 1)) (by omega) (Nat.le_refl _)
    rw [searchHeadBackward, hn]
    refine (if_neg (by rw [hh]; exact Bool.false_ne_true)).trans ?_
    exact ih fun j hj hjk => hcont j hj (by omega)

theorem isHead_cont {n : Nat} (h : n < 0x40) : isHead (0x80 + n) = false := by
  simp only [isHead, Bool.or_eq_false_iff, decide_eq_false_iff_not]
  omega

theorem isHead_first {n : Nat} (h : n < 0x80 ∨ 0xc2 ≤ n) : isHead n = true := by
  simp only [isHead, Bool.or_eq_true, decide_eq_true_eq]
  exact h

theorem prev_at (x : List Char) (c : Char) (y : List Char) :
    prev (bytes (x ++ c :: y)) (((bytes x).length + (encode c).length : Nat) : Int) = some ((bytes x).length : Int) := by
  have at_ := getElem?_at x c y
  have hs := shape_encode c
  rw [prev, Int.toNat_natCast]
  generalize bytes (x ++ c :: y) = t at at_
  generalize encode c = s at hs at_
  generalize (bytes x).length = i at at_
  have first (n : Nat) (hn : t[i + 0]? = some n) (hh : isHead n = true) : ∃ n, t[i]? = some n ∧ isHead n = true := ⟨n, hn, hh⟩
  cases hs with
  | one h => exact searchHeadBackward_back i 0 (fun j h1 h2 => by omega) (first _ (at_ 0) (isHead_first (.inl h)))
  | two hn h2 hx h =>
    refine searchHeadBackward_back i 1 (fun j h1 h2 => ?_) (first _ (at_ 0) (isHead_first (.inr (by omega))))
    obtain rfl : j = i + 1 := by omega
    exact ⟨_, at_ 1, isHead_cont hx⟩
  | three hn hx hy hbig h =>
    refine searchHeadBackward_back i 2 (fun j h1 h2 => ?_) (first _ (at_ 0) (isHead_first (.inr (by omega))))
    obtain rfl | rfl : j = i + 1 ∨ j = i + 2 := by omega
    · exact ⟨_, at_ 1, isHead_cont hx⟩
    · exact ⟨_, at_ 2, isHead_cont hy⟩
  | four hn hx hy hz hbig h =>
    refine searchHeadBackward_back i 3 (fun j h1 h2 => ?_) (first _ (at_ 0) (isHead_first (.inr (by omega))))
    obtain rfl | rfl | rfl : j = i + 1 ∨ j = i + 2 ∨ j = i + 3 := by omega
    · exact ⟨_, at_ 1, isHead_cont hx⟩
    · exact ⟨_, at_ 2, isHead_cont hy⟩
    · exact ⟨_, at_ 3, isHead_cont hz⟩

theorem prev_offset {i : Nat} (h : i < a.length) : prev (bytes a) (offset a (i + 1)) = some (offset a i : Int) := by
  obtain ⟨x, c, y, rfl, rfl⟩ := split_at h
  rw [offset_append, offset_snoc, prev_at]

theorem moveForward_offset {n i : Nat} (h : i + n ≤ a.length) :
    moveForward (bytes a) n (offset a i) = some (offset a (i + n) : Int) := by
  induction n generalizing i with
  | zero => rfl
  | succ n ih =>
    rw [moveForward, next_offset (by omega)]
    exact (ih (by omega)).trans (by rw [Nat.add_right_comm, Nat.add_assoc])

theorem moveBackward_offset {n i : Nat} (h : i + n ≤ a.length) :
    moveBackward (bytes a) n (offset a (i + n)) = some (offset a i : Int) := by
  induction n with
  | zero => rfl
  | succ n ih =>
    rw [moveBackward, ← Nat.add_assoc, prev_offset (by omega)]
    exact ih (by omega)

end EvilHaxe.Unicode.UTF8
