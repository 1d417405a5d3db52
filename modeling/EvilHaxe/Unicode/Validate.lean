/-
`UnicodeString.validate` accepts the byte strings that Table 3-7 of the Unicode standard calls well-formed, and reads no
byte outside of them.
-/
import Mathlib.Data.List.Basic
import Mathlib.Data.Nat.Bitwise

namespace EvilHaxe.Unicode

inductive Encoding where
  | UTF8
  | RawNative
  deriving DecidableEq

/-- How a call can end without a result: what is thrown, a read outside of the bytes, or a loop that goes on. -/
inductive Fault where
  | thrown (message : String)
  | outside
  | endless
  deriving DecidableEq

def fastGet (b : List UInt8) (pos : Nat) : Except Fault Nat :=
  match b[pos]? with
  | some c => .ok c.toNat
  | none => .error .outside

/-- The body of the loop: the next position, or nothing where `false` is returned. -/
def next (b : List UInt8) (pos : Nat) : Except Fault (Option Nat) := do
  let max := b.length
  let c ← fastGet b pos
  let pos := pos + 1
  if c < 0x80 then return some pos
  else if c < 0xC2 then return none
  else if c < 0xE0 then
    if pos + 1 > max then return none
    else
      let c2 ← fastGet b pos
      if c2 < 0x80 ∨ c2 > 0xBF then return none else return some (pos + 1)
  else if c < 0xF0 then
    if pos + 2 > max then return none
    else
      let c2 ← fastGet b pos
      if (if c = 0xE0 then c2 < 0xA0 ∨ c2 > 0xBF else c2 < 0x80 ∨ c2 > 0xBF) then return none
      else
        let c3 ← fastGet b (pos + 1)
        if c3 < 0x80 ∨ c3 > 0xBF then return none
        else
          let c := (c <<< 16) ||| (c2 <<< 8) ||| c3
          if 0xEDA080 ≤ c ∧ c ≤ 0xEDBFBF then return none else return some (pos + 2)
  else if c > 0xF4 then return none
  else
    if pos + 3 > max then return none
    else
      let c2 ← fastGet b pos
      if (if c = 0xF0 then c2 < 0x90 ∨ c2 > 0xBF
          else if c = 0xF4 then c2 < 0x80 ∨ c2 > 0x8F else c2 < 0x80 ∨ c2 > 0xBF) then return none
      else
        let c3 ← fastGet b (pos + 1)
        if c3 < 0x80 ∨ c3 > 0xBF then return none
        else
          let c4 ← fastGet b (pos + 2)
          if c4 < 0x80 ∨ c4 > 0xBF then return none else return some (pos + 3)

def validateLoop (b : List UInt8) : Nat → Nat → Except Fault Bool
  | 0, _ => .error .endless
  | fuel + 1, pos =>
    if pos < b.length then do
      match ← next b pos with
      | some pos => validateLoop b fuel pos
      | none => return false
    else return true

/-- Each round of the loop goes on by a byte at least. -/
def validate (b : List UInt8) (encoding : Encoding) : Except Fault Bool :=
  match encoding with
  | .RawNative => .error (.thrown "UnicodeString.validate: RawNative encoding is not supported")
  | .UTF8 => validateLoop b (b.length + 1) 0

/-! ## Table 3-7 -/

def Between (lo hi : Nat) (b : UInt8) : Prop := lo ≤ b.toNat ∧ b.toNat ≤ hi

/-- The rows of the table. -/
inductive Sequence : List UInt8 → Prop
  | one {a : UInt8} (ha : Between 0x00 0x7F a) : Sequence [a]
  | two {a b : UInt8} (ha : Between 0xC2 0xDF a) (hb : Between 0x80 0xBF b) : Sequence [a, b]
  | three_e0 {a b c : UInt8} (ha : Between 0xE0 0xE0 a) (hb : Between 0xA0 0xBF b) (hc : Between 0x80 0xBF c) : Sequence [a, b, c]
  | three_e1 {a b c : UInt8} (ha : Between 0xE1 0xEC a) (hb : Between 0x80 0xBF b) (hc : Between 0x80 0xBF c) : Sequence [a, b, c]
  | three_ed {a b c : UInt8} (ha : Between 0xED 0xED a) (hb : Between 0x80 0x9F b) (hc : Between 0x80 0xBF c) : Sequence [a, b, c]
  | three_ee {a b c : UInt8} (ha : Between 0xEE 0xEF a) (hb : Between 0x80 0xBF b) (hc : Between 0x80 0xBF c) : Sequence [a, b, c]
  | four_f0 {a b c d : UInt8} (ha : Between 0xF0 0xF0 a) (hb : Between 0x90 0xBF b) (hc : Between 0x80 0xBF c)
      (hd : Between 0x80 0xBF d) : Sequence [a, b, c, d]
  | four_f1 {a b c d : UInt8} (ha : Between 0xF1 0xF3 a) (hb : Between 0x80 0xBF b) (hc : Between 0x80 0xBF c)
      (hd : Between 0x80 0xBF d) : Sequence [a, b, c, d]
  | four_f4 {a b c d : UInt8} (ha : Between 0xF4 0xF4 a) (hb : Between 0x80 0x8F b) (hc : Between 0x80 0xBF c)
      (hd : Between 0x80 0xBF d) : Sequence [a, b, c, d]

inductive WellFormed : List UInt8 → Prop
  | nil : WellFormed []
  | append {s rest : List UInt8} (hs : Sequence s) (hrest : WellFormed rest) : WellFormed (s ++ rest)

/-! ## What a first byte asks for -/

section

variable {a : UInt8} {t : List UInt8}

theorem wellFormed_cons : WellFormed (a :: t) ↔ ∃ s rest, Sequence (a :: s) ∧ t = s ++ rest ∧ WellFormed rest := by
  constructor
  · intro h
    generalize hl : a :: t = l at h
    cases h with
    | nil => cases hl
    | @append s rest hs hrest =>
      cases s with
      | nil => cases hs
      | cons a' s =>
        obtain ⟨rfl, rfl⟩ := List.cons.inj hl
        exact ⟨s, rest, hs, rfl, hrest⟩
  · rintro ⟨s, rest, hs, rfl, hrest⟩
    exact .append hs hrest

/-- The second byte of three or four, by the first one. -/
def Second (a b : UInt8) : Prop :=
  if a.toNat = 0xE0 then Between 0xA0 0xBF b
  else if a.toNat = 0xED then Between 0x80 0x9F b
  else if a.toNat = 0xF0 then Between 0x90 0xBF b
  else if a.toNat = 0xF4 then Between 0x80 0x8F b
  else Between 0x80 0xBF b

theorem wellFormed_one (ha : a.toNat < 0x80) : WellFormed (a :: t) ↔ WellFormed t := by
  rw [wellFormed_cons]
  constructor
  · rintro ⟨s, rest, hs, rfl, hrest⟩
    cases hs with
    | one _ => exact hrest
    | _ h => obtain ⟨hlo, -⟩ := h; omega
  · intro h
    exact ⟨[], t, .one ⟨Nat.zero_le _, by omega⟩, rfl, h⟩

theorem not_wellFormed (ha : 0x80 ≤ a.toNat ∧ a.toNat < 0xC2 ∨ 0xF4 < a.toNat) : ¬ WellFormed (a :: t) := by
  rw [wellFormed_cons]
  rintro ⟨s, rest, hs, -, -⟩
  cases hs with
  | _ h => obtain ⟨hlo, hhi⟩ := h; omega

theorem wellFormed_two (hlo : 0xC2 ≤ a.toNat) (hhi : a.toNat < 0xE0) :
    WellFormed (a :: t) ↔ ∃ b rest, t = b :: rest ∧ Between 0x80 0xBF b ∧ WellFormed rest := by
  rw [wellFormed_cons]
  constructor
  · rintro ⟨s, rest, hs, rfl, hrest⟩
    cases hs with
    | two _ hb => exact ⟨_, rest, rfl, hb, hrest⟩
    | _ h => obtain ⟨h1, h2⟩ := h; omega
  · rintro ⟨b, rest, rfl, hb, hrest⟩
    exact ⟨[b], rest, .two ⟨hlo, by omega⟩ hb, rfl, hrest⟩

theorem wellFormed_three (hlo : 0xE0 ≤ a.toNat) (hhi : a.toNat < 0xF0) :
    WellFormed (a :: t) ↔ ∃ b c rest, t = b :: c :: rest ∧ Second a b ∧ Between 0x80 0xBF c ∧ WellFormed rest := by
  rw [wellFormed_cons]
  constructor
  · rintro ⟨s, rest, hs, rfl, hrest⟩
    cases hs with
    | one h => obtain ⟨h1, h2⟩ := h; omega
    | two h => obtain ⟨h1, h2⟩ := h; omega
    | four_f0 h => obtain ⟨h1, h2⟩ := h; omega
    | four_f1 h => obtain ⟨h1, h2⟩ := h; omega
    | four_f4 h => obtain ⟨h1, h2⟩ := h; omega
    | _ h hb hc =>
      refine ⟨_, _, rest, rfl, ?_, hc, hrest⟩
      obtain ⟨h1, h2⟩ := h
      unfold Second
      repeat (first | rw [if_pos (by omega)] | rw [if_neg (by omega)])
      exact hb
  · rintro ⟨b, c, rest, rfl, hb, hc, hrest⟩
    refine ⟨[b, c], rest, ?_, rfl, hrest⟩
    unfold Second at hb
    split at hb
    next h => exact .three_e0 ⟨by omega, by omega⟩ hb hc
    next h =>
      split at hb
      next h' => exact .three_ed ⟨by omega, by omega⟩ hb hc
      next h' =>
        rw [if_neg (by omega), if_neg (by omega)] at hb
        by_cases hle : a.toNat ≤ 0xEC
        · exact .three_e1 ⟨by omega, hle⟩ hb hc
        · exact .three_ee ⟨by omega, by omega⟩ hb hc

theorem wellFormed_four (hlo : 0xF0 ≤ a.toNat) (hhi : a.toNat ≤ 0xF4) :
    WellFormed (a :: t) ↔
      ∃ b c d rest, t = b :: c :: d :: rest ∧ Second a b ∧ Between 0x80 0xBF c ∧ Between 0x80 0xBF d ∧ WellFormed rest := by
  rw [wellFormed_cons]
  constructor
  · rintro ⟨s, rest, hs, rfl, hrest⟩
    cases hs with
    | one h => obtain ⟨h1, h2⟩ := h; omega
    | two h => obtain ⟨h1, h2⟩ := h; omega
    | three_e0 h => obtain ⟨h1, h2⟩ := h; omega
    | three_e1 h => obtain ⟨h1, h2⟩ := h; omega
    | three_ed h => obtain ⟨h1, h2⟩ := h; omega
    | three_ee h => obtain ⟨h1, h2⟩ := h; omega
    | _ h hb hc hd =>
      refine ⟨_, _, _, rest, rfl, ?_, hc, hd, hrest⟩
      obtain ⟨h1, h2⟩ := h
      unfold Second
      repeat (first | rw [if_pos (by omega)] | rw [if_neg (by omega)])
      exact hb
  · rintro ⟨b, c, d, rest, rfl, hb, hc, hd, hrest⟩
    refine ⟨[b, c, d], rest, ?_, rfl, hrest⟩
    unfold Second at hb
    rw [if_neg (by omega), if_neg (by omega)] at hb
    split at hb
    next h => exact .four_f0 ⟨by omega, by omega⟩ hb hc hd
    next h =>
      split at hb
      next h' => exact .four_f4 ⟨by omega, by omega⟩ hb hc hd
      next h' => exact .four_f1 ⟨by omega, by omega⟩ hb hc hd

end

/-! ## The loop -/

theorem fastGet_append (front rest : List UInt8) {x : UInt8} {n : Nat} (h : rest[n]? = some x) :
    fastGet (front ++ rest) (front.length + n) = .ok x.toNat := by
  rw [fastGet, List.getElem?_append_right (Nat.le_add_right _ _), Nat.add_sub_cancel_left, h]

/-- The comparison of the packed bytes: surrogates begin with `0xED` and a second byte from `0xA0` on. -/
theorem packed_iff {c c2 c3 : Nat} (h2 : c2 ≤ 0xBF) (hlo : 0x80 ≤ c3) (hhi : c3 ≤ 0xBF) :
    (0xEDA080 ≤ ((c <<< 16) ||| (c2 <<< 8) ||| c3) ∧ ((c <<< 16) ||| (c2 <<< 8) ||| c3) ≤ 0xEDBFBF) ↔ c = 0xED ∧ 0xA0 ≤ c2 := by
  have hpacked : (c <<< 16) ||| (c2 <<< 8) ||| c3 = c * 65536 + c2 * 256 + c3 := by
    have hhigh : (c <<< 16) ||| (c2 <<< 8) = ((c <<< 8) + c2) <<< 8 := by
      rw [Nat.shiftLeft_add_eq_or_of_lt (show c2 < 2 ^ 8 by omega), Nat.shiftLeft_or_distrib, ← Nat.shiftLeft_add]
    rw [hhigh, ← Nat.shiftLeft_add_eq_or_of_lt (show c3 < 2 ^ 8 by omega), Nat.shiftLeft_eq, Nat.shiftLeft_eq]
    omega
  rw [hpacked]
  omega

/-- The checks of the second and third of three bytes. -/
theorem second_three {a b c : UInt8} (hlo : 0xE0 ≤ a.toNat) (hhi : a.toNat < 0xF0)
    (h2 : ¬ if a.toNat = 0xE0 then b.toNat < 0xA0 ∨ b.toNat > 0xBF else b.toNat < 0x80 ∨ b.toNat > 0xBF)
    (h3 : ¬ (c.toNat < 0x80 ∨ c.toNat > 0xBF)) :
    Second a b ↔ ¬ (0xEDA080 ≤ ((a.toNat <<< 16) ||| (b.toNat <<< 8) ||| c.toNat) ∧
      ((a.toNat <<< 16) ||| (b.toNat <<< 8) ||| c.toNat) ≤ 0xEDBFBF) := by
  have hb : b.toNat ≤ 0xBF ∧ 0x80 ≤ b.toNat := by
    split at h2 <;> omega
  rw [packed_iff hb.1 (by omega) (by omega), Second, Between, Between, Between, Between, Between]
  split at h2
  next h => rw [if_pos h]; omega
  next h =>
    rw [if_neg h]
    by_cases hed : a.toNat = 0xED
    · rw [if_pos hed]; omega
    · rw [if_neg hed, if_neg (by omega), if_neg (by omega)]; omega

theorem second_of_three {a b : UInt8} (hlo : 0xE0 ≤ a.toNat) (hhi : a.toNat < 0xF0) (h : Second a b) :
    ¬ if a.toNat = 0xE0 then b.toNat < 0xA0 ∨ b.toNat > 0xBF else b.toNat < 0x80 ∨ b.toNat > 0xBF := by
  rw [Second, Between, Between, Between, Between, Between] at h
  by_cases he0 : a.toNat = 0xE0
  · rw [if_pos he0] at h ⊢; omega
  · rw [if_neg he0] at h ⊢
    split at h
    · omega
    · rw [if_neg (by omega), if_neg (by omega)] at h; omega

theorem second_four {a b : UInt8} (hlo : 0xF0 ≤ a.toNat) :
    Second a b ↔ ¬ if a.toNat = 0xF0 then b.toNat < 0x90 ∨ b.toNat > 0xBF
      else if a.toNat = 0xF4 then b.toNat < 0x80 ∨ b.toNat > 0x8F else b.toNat < 0x80 ∨ b.toNat > 0xBF := by
  rw [Second, Between, Between, Between, Between, Between, if_neg (by omega), if_neg (by omega)]
  split
  · omega
  · split <;> omega

/-- A round of the loop: what it skips is a row of the table. -/
theorem next_spec (front : List UInt8) (a : UInt8) (t : List UInt8) :
    (next (front ++ a :: t) front.length = .ok none ∧ ¬ WellFormed (a :: t)) ∨
      ∃ s rest, t = s ++ rest ∧ next (front ++ a :: t) front.length = .ok (some (front.length + 1 + s.length)) ∧
        (WellFormed (a :: t) ↔ WellFormed rest) := by
  have h0 : fastGet (front ++ a :: t) front.length = .ok a.toNat := fastGet_append front (a :: t) (n := 0) rfl
  have hget : ∀ n x, t[n]? = some x → fastGet (front ++ a :: t) (front.length + 1 + n) = .ok x.toNat := fun n x hx => by
    rw [Nat.add_assoc, Nat.add_comm 1 n]
    exact fastGet_append front (a :: t) (n := n + 1) hx
  have hlen : (front ++ a :: t).length = front.length + 1 + t.length := by
    rw [List.length_append, List.length_cons]
    omega
  have hbyte := a.toNat_lt
  rw [next, h0]
  simp only [bind, Except.bind, pure, Except.pure, hlen]
  by_cases h1 : a.toNat < 0x80
  · rw [if_pos h1]
    exact .inr ⟨[], t, rfl, rfl, wellFormed_one h1⟩
  rw [if_neg h1]
  by_cases h2 : a.toNat < 0xC2
  · rw [if_pos h2]
    exact .inl ⟨rfl, not_wellFormed (.inl ⟨by omega, h2⟩)⟩
  rw [if_neg h2]
  by_cases h3 : a.toNat < 0xE0
  · rw [if_pos h3, wellFormed_two (by omega) h3]
    cases t with
    | nil => exact .inl ⟨if_pos (by simp), by rintro ⟨b, rest, h, -⟩; cases h⟩
    | cons b rest =>
      rw [if_neg (by simp), hget 0 b rfl]
      dsimp only
      split
      next hbad =>
        refine .inl ⟨rfl, ?_⟩
        rintro ⟨b', rest', heq, ⟨hlo, hhi⟩, -⟩
        obtain ⟨rfl, rfl⟩ := List.cons.inj heq
        omega
      next hgood =>
        refine .inr ⟨[b], rest, rfl, rfl, ?_⟩
        constructor
        · rintro ⟨b', rest', heq, -, hrest⟩
          obtain ⟨rfl, rfl⟩ := List.cons.inj heq
          exact hrest
        · exact fun hrest => ⟨b, rest, rfl, ⟨by omega, by omega⟩, hrest⟩
  rw [if_neg h3]
  by_cases h4 : a.toNat < 0xF0
  · rw [if_pos h4, wellFormed_three (by omega) h4]
    rcases t with _ | ⟨b, _ | ⟨c, rest⟩⟩
    · exact .inl ⟨if_pos (by simp), by rintro ⟨b, c, rest, h, -⟩; cases h⟩
    · exact .inl ⟨if_pos (by simp), by rintro ⟨b, c, rest, h, -⟩; cases h⟩
    · rw [if_neg (by simp only [List.length_cons]; omega), hget 0 b rfl, hget 1 c rfl]
      dsimp only
      have hinv : (∃ b' c' rest', b :: c :: rest = b' :: c' :: rest' ∧ Second a b' ∧ Between 0x80 0xBF c' ∧ WellFormed rest') ↔
          Second a b ∧ Between 0x80 0xBF c ∧ WellFormed rest := by
        constructor
        · rintro ⟨b', c', rest', heq, h⟩
          obtain ⟨rfl, rfl, rfl⟩ : b = b' ∧ c = c' ∧ rest = rest' := by simpa using heq
          exact h
        · exact fun h => ⟨b, c, rest, rfl, h⟩
      rw [hinv]
      by_cases hgood2 : if a.toNat = 0xE0 then b.toNat < 0xA0 ∨ b.toNat > 0xBF else b.toNat < 0x80 ∨ b.toNat > 0xBF
      · rw [if_pos hgood2]
        exact .inl ⟨rfl, fun h => second_of_three (by omega) h4 h.1 hgood2⟩
      · rw [if_neg hgood2]
        split
        next hbad => exact .inl ⟨rfl, fun ⟨_, ⟨hlo, hhi⟩, _⟩ => by omega⟩
        next hgood3 =>
          have hsecond := second_three (by omega) h4 hgood2 hgood3
          split
          next hbad => exact .inl ⟨rfl, fun h => hsecond.1 h.1 hbad⟩
          next hgood =>
            refine .inr ⟨[b, c], rest, rfl, rfl, ?_⟩
            constructor
            · exact fun h => h.2.2
            · exact fun h => ⟨hsecond.2 hgood, ⟨by omega, by omega⟩, h⟩
  rw [if_neg h4]
  by_cases h5 : a.toNat > 0xF4
  · rw [if_pos h5]
    exact .inl ⟨rfl, not_wellFormed (.inr h5)⟩
  rw [if_neg h5, wellFormed_four (by omega) (by omega)]
  rcases t with _ | ⟨b, _ | ⟨c, _ | ⟨d, rest⟩⟩⟩
  · exact .inl ⟨if_pos (by simp), by rintro ⟨b, c, d, rest, h, -⟩; cases h⟩
  · exact .inl ⟨if_pos (by simp), by rintro ⟨b, c, d, rest, h, -⟩; cases h⟩
  · exact .inl ⟨if_pos (by simp), by rintro ⟨b, c, d, rest, h, -⟩; cases h⟩
  · rw [if_neg (by simp only [List.length_cons]; omega), hget 0 b rfl, hget 1 c rfl, hget 2 d rfl]
    dsimp only
    have hinv : (∃ b' c' d' rest', b :: c :: d :: rest = b' :: c' :: d' :: rest' ∧ Second a b' ∧ Between 0x80 0xBF c' ∧
        Between 0x80 0xBF d' ∧ WellFormed rest') ↔ Second a b ∧ Between 0x80 0xBF c ∧ Between 0x80 0xBF d ∧ WellFormed rest := by
      constructor
      · rintro ⟨b', c', d', rest', heq, h⟩
        obtain ⟨rfl, rfl, rfl, rfl⟩ : b = b' ∧ c = c' ∧ d = d' ∧ rest = rest' := by simpa using heq
        exact h
      · exact fun h => ⟨b, c, d, rest, rfl, h⟩
    have hsecond : Second a b ↔ _ := second_four (by omega)
    rw [hinv]
    by_cases hgood2 : if a.toNat = 0xF0 then b.toNat < 0x90 ∨ b.toNat > 0xBF
        else if a.toNat = 0xF4 then b.toNat < 0x80 ∨ b.toNat > 0x8F else b.toNat < 0x80 ∨ b.toNat > 0xBF
    · rw [if_pos hgood2]
      exact .inl ⟨rfl, fun h => hsecond.1 h.1 hgood2⟩
    · rw [if_neg hgood2]
      split
      next hbad => exact .inl ⟨rfl, fun ⟨_, ⟨hlo, hhi⟩, _⟩ => by omega⟩
      next hgood3 =>
        split
        next hbad => exact .inl ⟨rfl, fun ⟨_, _, ⟨hlo, hhi⟩, _⟩ => by omega⟩
        next hgood4 =>
          refine .inr ⟨[b, c, d], rest, rfl, rfl, ?_⟩
          constructor
          · exact fun h => h.2.2.2
          · exact fun h => ⟨hsecond.2 hgood2, ⟨by omega, by omega⟩, ⟨by omega, by omega⟩, h⟩

theorem validateLoop_spec {fuel : Nat} (front rest : List UInt8) (hfuel : rest.length < fuel) :
    ∃ r, validateLoop (front ++ rest) fuel front.length = .ok r ∧ (r = true ↔ WellFormed rest) := by
  induction fuel generalizing front rest with
  | zero => omega
  | succ fuel ih =>
    rw [validateLoop]
    cases rest with
    | nil =>
      rw [if_neg (by simp)]
      exact ⟨true, rfl, fun _ => .nil, fun _ => rfl⟩
    | cons a t =>
      rw [if_pos (by simp)]
      rcases next_spec front a t with ⟨hnext, hnot⟩ | ⟨s, rest, rfl, hnext, hiff⟩
      · rw [hnext]
        exact ⟨false, rfl, nofun, fun h => absurd h hnot⟩
      · rw [List.length_cons, List.length_append] at hfuel
        obtain ⟨r, hr, hrest⟩ := ih (front ++ a :: s) rest (by omega)
        have hpos : (front ++ a :: s).length = front.length + 1 + s.length := by
          rw [List.length_append, List.length_cons]
          omega
        rw [hpos, List.append_assoc, List.cons_append] at hr
        rw [hnext]
        exact ⟨r, hr, hrest.trans hiff.symm⟩

/-- `validate` answers, without a read outside of the bytes, whether they are a row of well-formed sequences. -/
theorem validate_spec (b : List UInt8) : ∃ r, validate b .UTF8 = .ok r ∧ (r = true ↔ WellFormed b) :=
  validateLoop_spec [] b (Nat.lt_succ_self _)

end EvilHaxe.Unicode
