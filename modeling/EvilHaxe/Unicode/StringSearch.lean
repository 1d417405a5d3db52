/-
`indexOf` and `lastIndexOf` of `UnicodeString.hx` on the targets whose strings are UTF-16. Both read the text once; where a
match fails, they begin a new one at the code point it failed at and never go back. Sums of indices do not overflow.
-/
import EvilHaxe.Lib.Restarts
import Mathlib.Data.Nat.Find

namespace EvilHaxe.Unicode.UnicodeString

open Lib

/-- The units of a string. -/
abbrev Units := List Nat

/-- `StringTools.utf16CodePointAt`. Beyond the end there is no code. -/
def utf16CodePointAt (s : Units) (index : Nat) : Option Nat :=
  s[index]?.map fun c =>
    if 0xD800 ≤ c ∧ c ≤ 0xDBFF then ((c - 0xD7C0) <<< 10) ||| (s[index + 1]?.getD 0 &&& 0x3FF) else c

/-- How many units a code takes: two from `MIN_SURROGATE_CODE_POINT` on. -/
def width (c : Option Nat) : Nat := if c.getD 0 ≥ 65536 then 2 else 1

theorem width_pos (c : Option Nat) : 0 < width c := by
  unfold width
  split <;> decide

/-- `get_length`, from an offset on. -/
def lengthLoop (this : Units) (offset : Nat) : Nat :=
  if offset < this.length then lengthLoop this (offset + width (utf16CodePointAt this offset)) + 1 else 0
termination_by this.length - offset
decreasing_by
  have h := width_pos (utf16CodePointAt this offset)
  omega

def length (this : Units) : Nat := lengthLoop this 0

/-- What is read beyond the end equals nothing. -/
def same (c c2 : Option Nat) : Bool := c.isSome && c == c2

def indexLoop (this str : Units) (startIndex : Int) (unicodeOffset nativeOffset matchingOffset : Nat) (result : Int) : Int :=
  if nativeOffset ≤ this.length then
    let c := utf16CodePointAt this nativeOffset
    if startIndex ≤ unicodeOffset then
      let c2 := utf16CodePointAt str matchingOffset
      if same c c2 then
        let result := if matchingOffset = 0 then (unicodeOffset : Int) else result
        if matchingOffset + width c2 = str.length then result
        else indexLoop this str startIndex (unicodeOffset + 1) (nativeOffset + width c) (matchingOffset + width c2) result
      else if matchingOffset ≠ 0 then indexLoop this str startIndex unicodeOffset nativeOffset 0 (-1)
      else indexLoop this str startIndex (unicodeOffset + 1) (nativeOffset + width c) matchingOffset result
    else indexLoop this str startIndex (unicodeOffset + 1) (nativeOffset + width c) matchingOffset result
  else -1
termination_by (this.length + 1 - nativeOffset, matchingOffset)
decreasing_by
  · have h := width_pos (utf16CodePointAt this nativeOffset)
    exact Prod.Lex.left _ _ (by omega)
  · exact Prod.Lex.right _ (by omega)
  · have h := width_pos (utf16CodePointAt this nativeOffset)
    exact Prod.Lex.left _ _ (by omega)
  · have h := width_pos (utf16CodePointAt this nativeOffset)
    exact Prod.Lex.left _ _ (by omega)

def indexOf (this str : Units) (startIndex : Option Int) : Int :=
  let startIndex := match startIndex with
    | none => 0
    | some i => if i < 0 then length this + i else i
  indexLoop this str startIndex 0 0 0 (-1)

/-- The loop of `lastIndexOf`; `stop` is `startIndex + strUnicodeLength`. -/
def lastLoop (this str : Units) (stop : Int) (unicodeOffset nativeOffset matchingOffset : Nat) (lastIndex result : Int) :
    Int :=
  if nativeOffset < this.length ∧ (unicodeOffset : Int) < stop then
    let c := utf16CodePointAt this nativeOffset
    let c2 := utf16CodePointAt str matchingOffset
    if same c c2 then
      let lastIndex := if matchingOffset = 0 then (unicodeOffset : Int) else lastIndex
      if matchingOffset + width c2 = str.length then
        lastLoop this str stop (unicodeOffset + 1) (nativeOffset + width c) (matchingOffset + width c2) (-1) lastIndex
      else lastLoop this str stop (unicodeOffset + 1) (nativeOffset + width c) (matchingOffset + width c2) lastIndex result
    else if matchingOffset ≠ 0 then lastLoop this str stop unicodeOffset nativeOffset 0 (-1) result
    else lastLoop this str stop (unicodeOffset + 1) (nativeOffset + width c) matchingOffset lastIndex result
  else result
termination_by (this.length - nativeOffset, matchingOffset)
decreasing_by
  · have h := width_pos (utf16CodePointAt this nativeOffset)
    exact Prod.Lex.left _ _ (by omega)
  · have h := width_pos (utf16CodePointAt this nativeOffset)
    exact Prod.Lex.left _ _ (by omega)
  · exact Prod.Lex.right _ (by omega)
  · have h := width_pos (utf16CodePointAt this nativeOffset)
    exact Prod.Lex.left _ _ (by omega)

def lastIndexOf (this str : Units) (startIndex : Option Int) : Int :=
  let startIndex : Int := match startIndex with
    | none => this.length
    | some i => if i < 0 then 0 else i
  lastLoop this str (startIndex + length str) 0 0 0 (-1) (-1)

/-! ## What they are for -/

/-- The units of a code point. -/
def encode (c : Char) : Units :=
  if c.toNat < 65536 then [c.toNat] else [0xD7C0 + c.toNat / 1024, 0xDC00 + c.toNat % 1024]

/-- A well-formed string: the units of its code points. -/
def units (a : List Char) : Units := a.flatMap encode

/-- The text has the word at an index. -/
def Occurs (a b : List Char) (i : Nat) : Prop := b <+: a.drop i

instance (a b : List Char) (i : Nat) : Decidable (Occurs a b i) := inferInstanceAs (Decidable (b <+: a.drop i))

/-- A negative start is counted from the end, and is at least 0. -/
def startAt (a : List Char) (start : Int) : Nat := if start < 0 then (a.length + start).toNat else start.toNat

/-- The first index of the word from the start on. -/
def First (a b : List Char) (start : Int) (i : Nat) : Prop :=
  startAt a start ≤ i ∧ Occurs a b i ∧ ∀ j, startAt a start ≤ j → Occurs a b j → i ≤ j

/-- The last index of the word up to the start. -/
def Last (a b : List Char) (start : Int) (i : Nat) : Prop :=
  i ≤ startAt a start ∧ Occurs a b i ∧ ∀ j, j ≤ startAt a start → Occurs a b j → j ≤ i

/-- The index for which the property holds, and -1 where there is none. -/
def Finds (P : Nat → Prop) (r : Int) : Prop := (∀ i, P i → r = i) ∧ ((∀ i, ¬P i) → r = -1)

/-! ## Reading code points -/

variable {a b : List Char}

theorem units_append (a b : List Char) : units (a ++ b) = units a ++ units b := List.flatMap_append

theorem units_cons (c : Char) (a : List Char) : units (c :: a) = encode c ++ units a := List.flatMap_cons

theorem pair_toNat (n : Nat) :
    ((0xD7C0 + n / 1024 - 0xD7C0) <<< 10) ||| ((0xDC00 + n % 1024) &&& 0x3FF) = n := by
  have lo : (0xDC00 + n % 1024) &&& 0x3FF = n % 1024 := by
    rw [Nat.and_two_pow_sub_one_eq_mod _ 10]
    omega
  rw [lo, Nat.add_sub_cancel_left, Nat.shiftLeft_eq, Nat.mul_comm, ← Nat.two_pow_add_eq_or_of_lt (by omega)]
  omega

theorem utf16CodePointAt_units (x : List Char) (c : Char) (y : List Char) :
    utf16CodePointAt (units (x ++ c :: y)) (units x).length = some c.toNat := by
  have read (k : Nat) : (units (x ++ c :: y))[(units x).length + k]? = (encode c ++ units y)[k]? := by
    rw [units_append, units_cons, List.getElem?_append_right (Nat.le_add_right _ _), Nat.add_sub_cancel_left]
  have r0 := read 0
  rw [Nat.add_zero] at r0
  rw [utf16CodePointAt, r0, read 1, encode]
  have valid := c.valid
  split
  · next h =>
    have hs : ¬(0xD800 ≤ c.toNat ∧ c.toNat ≤ 0xDBFF) := by
      rintro ⟨lo, hi⟩
      obtain h | ⟨h, -⟩ := valid
      · exact absurd h (by change ¬c.toNat < 0xd800; omega)
      · exact absurd h (by change ¬0xdfff < c.toNat; omega)
    simp [hs]
  · next h =>
    have hc : c.toNat < 1114112 := by
      obtain h | ⟨-, h⟩ := valid
      · exact Nat.lt_trans h (by decide)
      · exact h
    have hs : 0xD800 ≤ 0xD7C0 + c.toNat / 1024 ∧ 0xD7C0 + c.toNat / 1024 ≤ 0xDBFF := by omega
    simp only [List.cons_append, List.getElem?_cons_zero, List.getElem?_cons_succ, Option.map_some, if_pos hs,
      Option.getD_some]
    rw [pair_toNat]

theorem utf16CodePointAt_end (x : List Char) : utf16CodePointAt (units x) (units x).length = none := by
  rw [utf16CodePointAt, List.getElem?_eq_none (Nat.le_refl _)]
  rfl

theorem width_toNat (c : Char) : width (some c.toNat) = (encode c).length := by
  rw [width, encode, Option.getD_some]
  split
  · rw [if_neg (by omega)]
    rfl
  · rw [if_pos (by omega)]
    rfl

theorem length_encode_pos (c : Char) : 0 < (encode c).length := by
  rw [← width_toNat]
  exact width_pos _

theorem length_units_pos (h : a ≠ []) : 0 < (units a).length := by
  cases a with
  | nil => exact absurd rfl h
  | cons c a =>
    have hc := length_encode_pos c
    rw [units_cons, List.length_append]
    omega

theorem lengthLoop_units (x y : List Char) : lengthLoop (units (x ++ y)) (units x).length = y.length := by
  induction y generalizing x with
  | nil =>
    rw [List.append_nil, lengthLoop, if_neg (Nat.lt_irrefl _)]
    rfl
  | cons c y ih =>
    have hlt : (units x).length < (units (x ++ c :: y)).length := by
      have h := length_units_pos (List.cons_ne_nil c y)
      rw [units_append, List.length_append]
      omega
    have next : (units x).length + (encode c).length = (units (x ++ [c])).length := by
      rw [units_append, List.length_append, units_cons, List.length_append]
      rfl
    rw [lengthLoop, if_pos hlt, utf16CodePointAt_units, width_toNat, next, List.append_cons, ih, List.length_cons]

theorem length_eq (a : List Char) : length (units a) = a.length := lengthLoop_units [] a

theorem toNat_inj {c d : Char} : c.toNat = d.toNat ↔ c = d := Char.toNat_inj

theorem same_some {c d : Char} : same (some c.toNat) (some d.toNat) = true ↔ c = d := by
  simp [same, toNat_inj]

theorem same_none_right (c : Option Nat) : same c none = false := by
  cases c <;> rfl

/-- The units before a code point; one more beyond the end, where the loop of `indexOf` stops. -/
def offset (a : List Char) (p : Nat) : Nat := (units (a.take p)).length + (p - a.length)

theorem offset_append (x y : List Char) : offset (x ++ y) x.length = (units x).length := by
  rw [offset, List.take_left, List.length_append, Nat.sub_eq_zero_of_le (Nat.le_add_right _ _), Nat.add_zero]

theorem offset_snoc (x : List Char) (c : Char) (y : List Char) :
    offset (x ++ c :: y) (x.length + 1) = (units x).length + (encode c).length := by
  have h := offset_append (x ++ [c]) y
  rw [List.append_assoc, List.singleton_append, List.length_append, List.length_singleton, units_append,
    List.length_append, units_cons] at h
  rw [h, List.length_append]
  rfl

theorem offset_end (x : List Char) : offset x (x.length + 1) = (units x).length + 1 := by
  rw [offset, List.take_of_length_le (Nat.le_succ _), Nat.add_sub_cancel_left]

/-! ## `indexOf` -/

/-- The loop where no match has begun. -/
def indexAt (a b : List Char) (startIndex : Int) (p : Nat) : Int :=
  indexLoop (units a) (units b) startIndex p (offset a p) 0 (-1)

/-- A match that has found `b₁` behind `a₀`: it finds the rest, or a new one begins where it fails. -/
theorem index_match (startIndex : Int) (a₀ b₁ a' b' : List Char) (hb : b' ≠ []) (hs : startIndex ≤ a₀.length) (r : Int)
    (hr : if b₁ = [] then r = -1 else r = a₀.length) :
    indexLoop (units (a₀ ++ b₁ ++ a')) (units (b₁ ++ b')) startIndex (a₀ ++ b₁).length (units (a₀ ++ b₁)).length
        (units b₁).length r =
      if b' <+: a' then (a₀.length : Int)
      else indexAt (a₀ ++ b₁ ++ a') (b₁ ++ b') startIndex (a₀.length + max 1 (b₁.length + common b' a')) := by
  obtain ⟨x, b', rfl⟩ := List.exists_cons_of_ne_nil hb
  have hle : (units (a₀ ++ b₁)).length ≤ (units (a₀ ++ b₁ ++ a')).length := by
    rw [units_append (a₀ ++ b₁) a', List.length_append]
    exact Nat.le_add_right _ _
  have hu : startIndex ≤ ((a₀ ++ b₁).length : Int) := by
    rw [List.length_append]
    omega
  -- What happens where the match fails.
  have fails (c : Option Nat) (hc : utf16CodePointAt (units (a₀ ++ b₁ ++ a')) (units (a₀ ++ b₁)).length = c)
      (hne : same c (some x.toNat) = false)
      (hoff : offset (a₀ ++ b₁ ++ a') ((a₀ ++ b₁).length + 1) = (units (a₀ ++ b₁)).length + width c) :
      indexLoop (units (a₀ ++ b₁ ++ a')) (units (b₁ ++ x :: b')) startIndex (a₀ ++ b₁).length (units (a₀ ++ b₁)).length
          (units b₁).length r =
        indexAt (a₀ ++ b₁ ++ a') (b₁ ++ x :: b') startIndex (a₀.length + max 1 b₁.length) := by
    rw [indexLoop, if_pos hle, hc, utf16CodePointAt_units]
    dsimp only
    rw [if_pos hu, hne, if_neg Bool.false_ne_true]
    by_cases h1 : b₁ = []
    · subst h1
      rw [if_pos rfl] at hr
      subst hr
      rw [if_neg (by simp [units]), indexAt, ← hoff, List.append_nil]
      rfl
    · have hpos := length_units_pos h1
      have hlen := List.length_pos_iff.2 h1
      have hq : a₀.length + max 1 b₁.length = (a₀ ++ b₁).length := by
        rw [List.length_append]
        omega
      rw [if_pos (Nat.ne_of_gt hpos), indexAt, hq, offset_append]
  cases a' with
  | nil =>
    rw [if_neg (fun h => absurd (List.prefix_nil.1 h) (List.cons_ne_nil _ _)), common_nil, Nat.add_zero]
    refine fails none ?_ rfl ?_
    · rw [List.append_nil]
      exact utf16CodePointAt_end _
    · rw [List.append_nil]
      exact offset_end _
  | cons y a' =>
    by_cases hxy : x = y
    · subst hxy
      have hres : (if (units b₁).length = 0 then ((a₀ ++ b₁).length : Int) else r) = a₀.length := by
        by_cases h1 : b₁ = []
        · subst h1
          rw [List.append_nil]
          exact if_pos rfl
        · rw [if_neg (Nat.ne_of_gt (length_units_pos h1))]
          rwa [if_neg h1] at hr
      have nextA : (units (a₀ ++ b₁)).length + (encode x).length = (units (a₀ ++ (b₁ ++ [x]))).length := by
        rw [← List.append_assoc, units_append (a₀ ++ b₁), List.length_append, units_cons, List.length_append]
        rfl
      have nextB : (units b₁).length + (encode x).length = (units (b₁ ++ [x])).length := by
        rw [units_append, List.length_append, units_cons, List.length_append]
        rfl
      rw [indexLoop, if_pos hle, utf16CodePointAt_units, utf16CodePointAt_units]
      dsimp only
      rw [if_pos hu, if_pos (same_some.2 rfl), hres, width_toNat, nextA, nextB, common_cons_self]
      cases b' with
      | nil =>
        rw [if_pos rfl, if_pos (List.cons_prefix_cons.2 ⟨rfl, List.nil_prefix⟩)]
      | cons z b' =>
        have hne : (units (b₁ ++ [x])).length ≠ (units (b₁ ++ [x] ++ z :: b')).length := by
          have h := length_units_pos (List.cons_ne_nil z b')
          rw [units_append (b₁ ++ [x]), List.length_append]
          omega
        have ih := index_match startIndex a₀ (b₁ ++ [x]) a' (z :: b') (List.cons_ne_nil _ _) hs a₀.length
          (by rw [if_neg (by simp)])
        have hu1 : (a₀ ++ b₁).length + 1 = (a₀ ++ (b₁ ++ [x])).length := by
          simp only [List.length_append, List.length_singleton, Nat.add_assoc]
        have hmax : max 1 ((b₁ ++ [x]).length + common (z :: b') a') = max 1 (b₁.length + (common (z :: b') a' + 1)) := by
          rw [List.length_append, List.length_singleton, Nat.add_assoc, Nat.add_comm 1]
        have hpre : x :: z :: b' <+: x :: a' ↔ z :: b' <+: a' :=
          List.cons_prefix_cons.trans (and_iff_right rfl)
        have hassoc : a₀ ++ b₁ ++ x :: a' = a₀ ++ (b₁ ++ [x]) ++ a' := by
          simp only [List.append_assoc, List.singleton_append]
        rw [List.append_cons b₁ x (z :: b'), if_neg hne, hu1, hassoc, ih, hmax]
        simp only [hpre]
    · rw [if_neg (fun h => hxy (List.cons_prefix_cons.1 h).1), common_cons_ne hxy, Nat.add_zero]
      refine fails (some y.toNat) (utf16CodePointAt_units _ _ _) ?_ ?_
      · exact Bool.eq_false_iff.2 fun h => hxy (same_some.1 h).symm
      · rw [offset_snoc, width_toNat]
termination_by b'.length

/-- The loop from a place where no match has begun. -/
theorem indexAt_next {startIndex : Int} {p : Nat} (hb : b ≠ []) (hs : startIndex ≤ p) (hp : p ≤ a.length) :
    indexAt a b startIndex p =
      if Occurs a b p then (p : Int) else indexAt a b startIndex (p + max 1 (common b (a.drop p))) := by
  have hlen : (a.take p).length = p := List.length_take_of_le hp
  have h := index_match startIndex (a.take p) [] (a.drop p) b hb (by rw [hlen]; exact hs) (-1) (by rw [if_pos rfl])
  rw [List.append_nil, List.take_append_drop, List.nil_append, hlen, List.length_nil, Nat.zero_add] at h
  rw [indexAt, offset, Nat.sub_eq_zero_of_le hp, Nat.add_zero]
  exact h

theorem indexAt_beyond {startIndex : Int} {p : Nat} (hp : a.length < p) : indexAt a b startIndex p = -1 := by
  have h : ¬offset a p ≤ (units a).length := by
    rw [offset, List.take_of_length_le (Nat.le_of_lt hp)]
    omega
  rw [indexAt, indexLoop, if_neg h]

/-- Before the start nothing is compared. -/
theorem indexAt_skip {startIndex : Int} {p : Nat} (hs : (p : Int) < startIndex) (hp : p ≤ a.length) :
    indexAt a b startIndex p = indexAt a b startIndex (p + 1) := by
  have hle : offset a p ≤ (units a).length := by
    rw [offset, Nat.sub_eq_zero_of_le hp, Nat.add_zero]
    calc (units (a.take p)).length ≤ (units (a.take p)).length + (units (a.drop p)).length := Nat.le_add_right _ _
      _ = (units a).length := by rw [← List.length_append, ← units_append, List.take_append_drop]
  have hoff : offset a p + width (utf16CodePointAt (units a) (offset a p)) = offset a (p + 1) := by
    obtain ⟨x, y, rfl, rfl⟩ : ∃ x y, a = x ++ y ∧ p = x.length :=
      ⟨_, _, (List.take_append_drop p a).symm, (List.length_take_of_le hp).symm⟩
    rw [offset_append]
    cases y with
    | nil =>
      rw [List.append_nil, utf16CodePointAt_end, offset_end]
      rfl
    | cons c y => rw [utf16CodePointAt_units, width_toNat, offset_snoc]
  rw [indexAt, indexLoop, if_pos hle]
  dsimp only
  rw [if_neg (Int.not_le.2 hs), hoff]
  rfl

/-- The loop gives the first index, among those at which it begins, at which the word occurs. -/
theorem indexAt_spec {startIndex : Int} (hb : b ≠ []) (p : Nat) (hs : startIndex ≤ p) :
    (∃ i : Nat, indexAt a b startIndex p = i ∧ Restarts b a p i ∧ Occurs a b i ∧ ∀ j, Restarts b a p j → Occurs a b j → i ≤ j) ∨
      (indexAt a b startIndex p = -1 ∧ ∀ j, Restarts b a p j → ¬Occurs a b j) := by
  by_cases hp : p ≤ a.length
  · rw [indexAt_next hb hs hp]
    by_cases ho : Occurs a b p
    · rw [if_pos ho]
      exact .inl ⟨p, rfl, .here p, ho, fun j hj _ => hj.le⟩
    · rw [if_neg ho]
      obtain ⟨i, hi, hr, hoi, least⟩ | ⟨hi, none⟩ :=
        indexAt_spec hb (p + max 1 (common b (a.drop p))) (by omega : startIndex ≤ _)
      · refine .inl ⟨i, hi, .next hr, hoi, fun j hj hoj => ?_⟩
        obtain rfl | hj := restarts_iff.1 hj
        · exact absurd hoj ho
        · exact least j hj hoj
      · refine .inr ⟨hi, fun j hj hoj => ?_⟩
        obtain rfl | hj := restarts_iff.1 hj
        · exact ho hoj
        · exact none j hj hoj
  · refine .inr ⟨indexAt_beyond (Nat.lt_of_not_le hp), fun j hj hoj => ?_⟩
    have hj := hj.le
    rw [Occurs, List.drop_eq_nil_of_le (by omega)] at hoj
    exact hb (List.prefix_nil.1 hoj)
termination_by a.length + 1 - p

theorem indexAt_start (startIndex : Int) (p : Nat) (hp : (p : Int) ≤ max startIndex 0) :
    indexAt a b startIndex p = indexAt a b startIndex startIndex.toNat ∨
      (a.length < startIndex.toNat ∧ indexAt a b startIndex p = -1) := by
  by_cases hlt : (p : Int) < startIndex
  · by_cases hl : p ≤ a.length
    · rw [indexAt_skip hlt hl]
      exact indexAt_start startIndex (p + 1) (by omega)
    · exact .inr ⟨by omega, indexAt_beyond (Nat.lt_of_not_le hl)⟩
  · have h : p = startIndex.toNat := by omega
    rw [h]
    exact .inl rfl
termination_by startIndex.toNat - p

theorem indexOf_eq (a b : List Char) (start : Int) :
    indexOf (units a) (units b) (some start) =
      indexAt a b (if start < 0 then a.length + start else start) (startAt a start) := by
  have h0 : indexOf (units a) (units b) (some start) = indexAt a b (if start < 0 then a.length + start else start) 0 := by
    have hoff : offset a 0 = 0 := by simp [offset, units]
    rw [indexOf, length_eq, indexAt, hoff]
  have hst : startAt a start = (if start < 0 then (a.length : Int) + start else start).toNat := by
    rw [startAt]
    split <;> rfl
  rw [h0, hst]
  obtain h | ⟨hlt, h⟩ := @indexAt_start a b (if start < 0 then (a.length : Int) + start else start) 0 (by omega)
  · exact h
  · rw [h, indexAt_beyond hlt]

theorem indexOf_iff (a b : List Char) (hb : b ≠ []) (start : Int) :
    Finds (First a b start) (indexOf (units a) (units b) (some start)) ↔
      ∀ i, First a b start i → Restarts b a (startAt a start) i := by
  rw [indexOf_eq]
  have hs : (if start < 0 then (a.length : Int) + start else start) ≤ startAt a start := by
    rw [startAt]
    split <;> omega
  have spec := @indexAt_spec a b _ hb (startAt a start) hs
  constructor
  · rintro ⟨found, -⟩ i hi
    have h := found i hi
    obtain ⟨j, hj, hr, -⟩ | ⟨hj, -⟩ := spec
    · have hij : i = j := by omega
      exact hij ▸ hr
    · omega
  · intro reached
    constructor
    · rintro i ⟨hle, ho, least⟩
      have hri := reached i ⟨hle, ho, least⟩
      obtain ⟨j, hj, hr, hoj, first⟩ | ⟨-, none⟩ := spec
      · have h1 := least j hr.le hoj
        have h2 := first i hri ho
        omega
      · exact absurd ho (none i hri)
    · intro no
      obtain ⟨j, hj, hr, hoj, first⟩ | ⟨hj, -⟩ := spec
      · exfalso
        classical
        have hex : ∃ i, startAt a start ≤ i ∧ Occurs a b i := ⟨j, hr.le, hoj⟩
        obtain ⟨h1, h2⟩ := Nat.find_spec hex
        exact no _ ⟨h1, h2, fun k hk hok => Nat.find_min' hex ⟨hk, hok⟩⟩
      · exact hj

/-! ## `lastIndexOf` -/

/-- The loop where no match has begun. -/
def lastAt (a b : List Char) (stop : Int) (p : Nat) (result : Int) : Int :=
  lastLoop (units a) (units b) stop p (offset a p) 0 (-1) result

theorem lastAt_stop {stop : Int} {p : Nat} (h : a.length ≤ p ∨ stop ≤ p) (result : Int) :
    lastAt a b stop p result = result := by
  rw [lastAt, lastLoop, if_neg]
  rintro ⟨hn, hu⟩
  obtain h | h := h
  · rw [offset, List.take_of_length_le h] at hn
    omega
  · omega

/-- Behind a whole match nothing of the word is left to compare with, and so a new match begins. -/
theorem last_whole {stop : Int} (hb : b ≠ []) (p : Nat) (result : Int) :
    lastLoop (units a) (units b) stop p (offset a p) (units b).length (-1) result = lastAt a b stop p result := by
  by_cases h : offset a p < (units a).length ∧ (p : Int) < stop
  · rw [lastLoop, if_pos h, utf16CodePointAt_end]
    dsimp only
    rw [same_none_right, if_neg Bool.false_ne_true, if_pos (Nat.ne_of_gt (length_units_pos hb)), lastAt]
  · rw [lastLoop, if_neg h, lastAt, lastLoop, if_neg h]

/-- A match that has found `b₁` behind `a₀`: it finds the rest before the stop or not, and a new one begins. -/
theorem last_match (stop : Int) (a₀ b₁ a' b' : List Char) (hb : b' ≠ []) (lastIndex result : Int)
    (hr : if b₁ = [] then lastIndex = -1 else lastIndex = a₀.length) :
    lastLoop (units (a₀ ++ b₁ ++ a')) (units (b₁ ++ b')) stop (a₀ ++ b₁).length (units (a₀ ++ b₁)).length
        (units b₁).length lastIndex result =
      lastAt (a₀ ++ b₁ ++ a') (b₁ ++ b') stop (a₀.length + max 1 (b₁.length + common b' a'))
        (if b' <+: a' ∧ ((a₀.length + (b₁.length + b'.length) : Nat) : Int) ≤ stop then (a₀.length : Int) else result) := by
  obtain ⟨x, b', rfl⟩ := List.exists_cons_of_ne_nil hb
  have hlen : (a₀ ++ b₁).length = a₀.length + b₁.length := List.length_append
  have hlenb : (x :: b').length = b'.length + 1 := rfl
  cases a' with
  | nil =>
    rw [if_neg (fun h => absurd (List.prefix_nil.1 h.1) (List.cons_ne_nil _ _)), common_nil, lastAt_stop, lastLoop, if_neg]
    · rw [List.append_nil]
      exact fun h => Nat.lt_irrefl _ h.1
    · rw [List.append_nil, hlen]
      omega
  | cons y a' =>
    by_cases hu : ((a₀ ++ b₁).length : Int) < stop
    · have hlt : (units (a₀ ++ b₁)).length < (units (a₀ ++ b₁ ++ y :: a')).length := by
        have h := length_units_pos (List.cons_ne_nil y a')
        rw [units_append (a₀ ++ b₁) (y :: a'), List.length_append]
        omega
      rw [lastLoop, if_pos ⟨hlt, hu⟩, utf16CodePointAt_units, utf16CodePointAt_units]
      dsimp only
      by_cases hxy : x = y
      · subst hxy
        have hres : (if (units b₁).length = 0 then ((a₀ ++ b₁).length : Int) else lastIndex) = a₀.length := by
          by_cases h1 : b₁ = []
          · subst h1
            rw [List.append_nil]
            exact if_pos rfl
          · rw [if_neg (Nat.ne_of_gt (length_units_pos h1))]
            rwa [if_neg h1] at hr
        have nextB : (units b₁).length + (encode x).length = (units (b₁ ++ [x])).length := by
          rw [units_append, List.length_append, units_cons, List.length_append]
          rfl
        rw [if_pos (same_some.2 rfl), hres, width_toNat, nextB, common_cons_self, ← offset_snoc _ _ a']
        cases b' with
        | nil =>
          have hfit : ((a₀.length + (b₁.length + [x].length) : Nat) : Int) ≤ stop := by
            rw [List.length_singleton]
            omega
          have hq : a₀.length + max 1 (b₁.length + (common [] a' + 1)) = (a₀ ++ b₁).length + 1 := by
            have h0 : common ([] : List Char) a' = 0 := rfl
            rw [h0]
            omega
          rw [if_pos rfl, if_pos ⟨List.cons_prefix_cons.2 ⟨rfl, List.nil_prefix⟩, hfit⟩, hq]
          exact last_whole (by simp) _ _
        | cons z b' =>
          have hne : (units (b₁ ++ [x])).length ≠ (units (b₁ ++ [x] ++ z :: b')).length := by
            have h := length_units_pos (List.cons_ne_nil z b')
            rw [units_append (b₁ ++ [x]), List.length_append]
            omega
          have ih := last_match stop a₀ (b₁ ++ [x]) a' (z :: b') (List.cons_ne_nil _ _) a₀.length result
            (by rw [if_neg (by simp)])
          have hu1 : (a₀ ++ b₁).length + 1 = (a₀ ++ (b₁ ++ [x])).length := by
            simp only [List.length_append, List.length_singleton, Nat.add_assoc]
          have hb1 : (b₁ ++ [x]).length = b₁.length + 1 := by simp
          have hmax : (b₁ ++ [x]).length + common (z :: b') a' = b₁.length + (common (z :: b') a' + 1) := by
            rw [hb1]
            omega
          have hsum : (b₁ ++ [x]).length + (z :: b').length = b₁.length + (x :: z :: b').length := by
            rw [hb1, hlenb]
            omega
          have hpre : x :: z :: b' <+: x :: a' ↔ z :: b' <+: a' :=
            List.cons_prefix_cons.trans (and_iff_right rfl)
          have hassoc : a₀ ++ b₁ ++ x :: a' = a₀ ++ (b₁ ++ [x]) ++ a' := by
            simp only [List.append_assoc, List.singleton_append]
          rw [List.append_cons b₁ x (z :: b'), if_neg hne, hu1, hassoc, offset_append, ih, hmax, hsum]
          simp only [hpre]
      · have hsame : ¬same (some y.toNat) (some x.toNat) = true := fun h => hxy (same_some.1 h).symm
        have hno : ¬(x :: b' <+: y :: a' ∧ ((a₀.length + (b₁.length + (x :: b').length) : Nat) : Int) ≤ stop) :=
          fun h => hxy (List.cons_prefix_cons.1 h.1).1
        rw [if_neg hsame, common_cons_ne hxy, Nat.add_zero, if_neg hno]
        by_cases h1 : b₁ = []
        · subst h1
          rw [if_pos rfl] at hr
          subst hr
          rw [if_neg (by simp [units]), width_toNat, ← offset_snoc _ _ a', lastAt, List.append_nil]
          rfl
        · have hq : a₀.length + max 1 (b₁.length + 0) = (a₀ ++ b₁).length := by
            have hpos := List.length_pos_iff.2 h1
            rw [hlen]
            omega
          rw [if_pos (Nat.ne_of_gt (length_units_pos h1)), lastAt, hq, offset_append]
    · rw [lastLoop, if_neg (fun h => hu h.2), if_neg (by omega), lastAt_stop]
      omega
termination_by b'.length

theorem lastAt_next {stop : Int} {p : Nat} (hb : b ≠ []) (hp : p ≤ a.length) (result : Int) :
    lastAt a b stop p result =
      lastAt a b stop (p + max 1 (common b (a.drop p)))
        (if Occurs a b p ∧ ((p + b.length : Nat) : Int) ≤ stop then (p : Int) else result) := by
  have hlen : (a.take p).length = p := List.length_take_of_le hp
  have h := last_match stop (a.take p) [] (a.drop p) b hb (-1) result (by rw [if_pos rfl])
  rw [List.append_nil, List.take_append_drop, List.nil_append, hlen, List.length_nil, Nat.zero_add, Nat.zero_add] at h
  rw [lastAt, offset, Nat.sub_eq_zero_of_le hp, Nat.add_zero]
  exact h

/-- The loop gives the last index, among those at which it begins, at which the word occurs up to `st`. -/
theorem lastAt_spec {st : Int} (hb : b ≠ []) (p : Nat) (result : Int) :
    (∃ i : Nat, lastAt a b (st + b.length) p result = i ∧ Restarts b a p i ∧ Occurs a b i ∧ (i : Int) ≤ st ∧
        ∀ j : Nat, Restarts b a p j → Occurs a b j → (j : Int) ≤ st → j ≤ i) ∨
      (lastAt a b (st + b.length) p result = result ∧ ∀ j : Nat, Restarts b a p j → Occurs a b j → ¬(j : Int) ≤ st) := by
  by_cases hp : p ≤ a.length
  · rw [lastAt_next hb hp]
    obtain ⟨i, hi, hr, hoi, hle, last⟩ | ⟨hi, none⟩ := lastAt_spec hb
      (p + max 1 (common b (a.drop p))) (if Occurs a b p ∧ ((p + b.length : Nat) : Int) ≤ st + b.length then (p : Int) else result)
    · refine .inl ⟨i, hi, .next hr, hoi, hle, fun j hj hoj hjs => ?_⟩
      obtain rfl | hj := restarts_iff.1 hj
      · have h := hr.le
        omega
      · exact last j hj hoj hjs
    · rw [hi]
      by_cases ho : Occurs a b p ∧ ((p + b.length : Nat) : Int) ≤ st + b.length
      · rw [if_pos ho]
        refine .inl ⟨p, rfl, .here p, ho.1, by omega, fun j hj hoj hjs => ?_⟩
        obtain rfl | hj := restarts_iff.1 hj
        · exact Nat.le_refl _
        · exact absurd hjs (none j hj hoj)
      · rw [if_neg ho]
        refine .inr ⟨rfl, fun j hj hoj hjs => ?_⟩
        obtain rfl | hj := restarts_iff.1 hj
        · exact ho ⟨hoj, by omega⟩
        · exact none j hj hoj hjs
  · refine .inr ⟨lastAt_stop (.inl (by omega)) result, fun j hj hoj _ => ?_⟩
    have hj := hj.le
    rw [Occurs, List.drop_eq_nil_of_le (by omega)] at hoj
    exact hb (List.prefix_nil.1 hoj)
termination_by a.length + 1 - p

theorem lastIndexOf_eq (a b : List Char) (start : Int) :
    lastIndexOf (units a) (units b) (some start) = lastAt a b (max start 0 + b.length) 0 (-1) := by
  have hoff : offset a 0 = 0 := by simp [offset, units]
  have hst : (if start < 0 then 0 else start) = max start 0 := by
    split <;> omega
  rw [lastIndexOf, length_eq, lastAt, hoff]
  simp only [hst]

theorem lastIndexOf_iff (a b : List Char) (hb : b ≠ []) (start : Int) :
    Finds (Last a b start) (lastIndexOf (units a) (units b) (some start)) ↔
      ∀ i : Nat, Last a b start i → Restarts b a 0 i ∧ (i : Int) ≤ max start 0 := by
  rw [lastIndexOf_eq]
  have hs : max start 0 ≤ startAt a start := by
    rw [startAt]
    split <;> omega
  have spec := @lastAt_spec a b (max start 0) hb 0 (-1)
  constructor
  · rintro ⟨found, -⟩ i hi
    have h := found i hi
    obtain ⟨j, hj, hr, -, hle, -⟩ | ⟨hj, -⟩ := spec
    · have hij : i = j := by omega
      subst hij
      exact ⟨hr, hle⟩
    · omega
  · intro reached
    constructor
    · rintro i ⟨hle, ho, greatest⟩
      obtain ⟨hri, his⟩ := reached i ⟨hle, ho, greatest⟩
      obtain ⟨j, hj, hr, hoj, hjs, last⟩ | ⟨-, none⟩ := spec
      · have h1 := greatest j (by omega) hoj
        have h2 := last i hri ho his
        omega
      · exact absurd his (none i hri ho)
    · intro no
      obtain ⟨j, hj, hr, hoj, hjs, last⟩ | ⟨hj, -⟩ := spec
      · have hle : j ≤ startAt a start := by omega
        exact absurd ⟨Nat.findGreatest_le _, Nat.findGreatest_spec (P := Occurs a b) hle hoj, fun k hk hok =>
          Nat.le_findGreatest hk hok⟩ (no (Nat.findGreatest (Occurs a b) (startAt a start)))
      · exact hj

end EvilHaxe.Unicode.UnicodeString
