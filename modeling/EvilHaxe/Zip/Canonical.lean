/-
The canonical code of RFC 1951, section 3.2.2: the codes of one length are consecutive and in the order of their symbols,
and the first code of a length comes behind those that the shorter codes take.
-/
import EvilHaxe.Lib.BitStrings
import Mathlib.Data.List.Count

namespace EvilHaxe.Zip.Canonical

open Lib

/-- `bl_count` -/
def countOf (ls : List Nat) (l : Nat) : Nat := if l = 0 then 0 else ls.count l

/-- `next_code`, before codes are given out. -/
def firstCode (ls : List Nat) : Nat → Nat
  | 0 => 0
  | l + 1 => (firstCode ls l + countOf ls l) * 2

/-- The code of the symbol `i`. -/
def code (ls : List Nat) (i : Nat) : Nat := firstCode ls (ls.getD i 0) + (ls.take i).count (ls.getD i 0)

/-- A code is packed from its highest bit on. -/
def codeword (ls : List Nat) (i : Nat) : List Bool := highFirst (ls.getD i 0) (code ls i)

def IsSymbol (ls : List Nat) (i : Nat) : Prop := ls.getD i 0 ≠ 0

instance (ls : List Nat) (i : Nat) : Decidable (IsSymbol ls i) := inferInstanceAs (Decidable (_ ≠ _))

inductive Decoded where
  | symbol (i : Nat) (rest : List Bool)
  | more
  | unused
deriving DecidableEq

/-- What the code makes of a sequence of bits: a symbol, if a code stands in front, and else whether a code may. -/
def decode (ls : List Nat) (w : List Bool) : Decoded :=
  match (List.range ls.length).find? fun i => IsSymbol ls i ∧ codeword ls i <+: w with
  | some i => .symbol i (w.drop (ls.getD i 0))
  | none => if ∃ i ∈ List.range ls.length, IsSymbol ls i ∧ w <+: codeword ls i then .more else .unused

/-! ## Kraft's sum -/

/-- What a code of length `l` takes of the numbers of `width` bits. -/
def slots (width l : Nat) : Nat := if 0 < l ∧ l ≤ width then 2 ^ (width - l) else 0

/-- Kraft's sum, times `2 ^ width`. -/
def kraft (ls : List Nat) (width : Nat) : Nat := (ls.map (slots width)).sum

def Complete (ls : List Nat) (width : Nat) : Prop := kraft ls width = 2 ^ width

def OverSubscribed (ls : List Nat) (width : Nat) : Prop := 2 ^ width < kraft ls width

/-- One code of length one, among lengths that are zero. -/
def Single (ls : List Nat) : Prop := ∃ before behind, ls = List.replicate before 0 ++ 1 :: List.replicate behind 0

/-- The numbers of `l` bits that codes of up to this length take. -/
def taken (ls : List Nat) (l : Nat) : Nat := firstCode ls l + countOf ls l

theorem firstCode_succ (ls : List Nat) (l : Nat) : firstCode ls (l + 1) = taken ls l * 2 := rfl

theorem slots_succ (width l : Nat) : slots (width + 1) l = 2 * slots width l + if l = width + 1 then 1 else 0 := by
  unfold slots
  rcases Nat.lt_trichotomy l (width + 1) with hlt | rfl | hgt
  · rw [if_neg (Nat.ne_of_lt hlt)]
    by_cases hpos : 0 < l
    · rw [if_pos ⟨hpos, by omega⟩, if_pos ⟨hpos, by omega⟩, Nat.succ_sub (by omega), Nat.pow_succ, Nat.mul_comm]
      rfl
    · rw [if_neg (by omega), if_neg (by omega)]
  · rw [if_pos ⟨Nat.succ_pos width, le_rfl⟩, if_neg (by omega), if_pos rfl, Nat.sub_self]
    rfl
  · rw [if_neg (by omega), if_neg (by omega), if_neg (by omega)]

theorem kraft_succ (ls : List Nat) (width : Nat) : kraft ls (width + 1) = 2 * kraft ls width + ls.count (width + 1) := by
  induction ls with
  | nil => rfl
  | cons l ls ih =>
    unfold kraft at ih ⊢
    rw [List.map_cons, List.map_cons, List.sum_cons, List.sum_cons, slots_succ, ih, List.count_cons]
    simp only [beq_iff_eq]
    omega

theorem taken_eq_kraft (ls : List Nat) (width : Nat) : taken ls width = kraft ls width := by
  induction width with
  | zero =>
    induction ls with
    | nil => rfl
    | cons l ls ih =>
      rw [kraft, List.map_cons, List.sum_cons, slots, if_neg (by omega), Nat.zero_add]
      exact ih
  | succ width ih => rw [taken, firstCode_succ, kraft_succ, ih, countOf, if_neg (Nat.succ_ne_zero width), Nat.mul_comm]

theorem taken_mul_le (ls : List Nat) (l k : Nat) : taken ls l * 2 ^ k ≤ taken ls (l + k) := by
  induction k with
  | zero => rw [Nat.pow_zero, Nat.mul_one]; exact le_rfl
  | succ k ih =>
    have hnext : taken ls (l + k + 1) = taken ls (l + k) * 2 + countOf ls (l + k + 1) := rfl
    rw [← Nat.add_assoc, hnext, Nat.pow_succ, ← Nat.mul_assoc]
    omega

/-! ## Codes and numbers -/

/-- The numbers that the codes of a length have, each one symbol's. -/
theorem exists_code {ls : List Nat} {l v : Nat} (hl : l ≠ 0) (hfirst : firstCode ls l ≤ v) (hlt : v < taken ls l) :
    ∃ i < ls.length, ls.getD i 0 = l ∧ code ls i = v := by
  have hrank : ∀ (ls : List Nat) (r : Nat), r < ls.count l → ∃ i < ls.length, ls.getD i 0 = l ∧ (ls.take i).count l = r := by
    intro ls
    induction ls with
    | nil => intro r hr; cases hr
    | cons a ls ih =>
      intro r hr
      by_cases ha : a = l
      · subst ha
        cases r with
        | zero => exact ⟨0, Nat.succ_pos _, rfl, rfl⟩
        | succ r =>
          rw [List.count_cons_self] at hr
          obtain ⟨i, hi, hget, hcount⟩ := ih r (by omega)
          exact ⟨i + 1, Nat.succ_lt_succ hi, hget, by rw [List.take_succ_cons, List.count_cons_self, hcount]⟩
      · rw [List.count_cons_of_ne ha] at hr
        obtain ⟨i, hi, hget, hcount⟩ := ih r hr
        exact ⟨i + 1, Nat.succ_lt_succ hi, hget, by rw [List.take_succ_cons, List.count_cons_of_ne ha, hcount]⟩
  rw [taken, countOf, if_neg hl] at hlt
  obtain ⟨i, hi, hget, hcount⟩ := hrank ls (v - firstCode ls l) (by omega)
  exact ⟨i, hi, hget, by rw [code, hget, hcount]; omega⟩

theorem lt_length_of_isSymbol {ls : List Nat} {i : Nat} (h : IsSymbol ls i) : i < ls.length := by
  by_contra hge
  exact h (by rw [List.getD_eq_default _ _ (by omega)])

theorem firstCode_le_code (ls : List Nat) (i : Nat) : firstCode ls (ls.getD i 0) ≤ code ls i := Nat.le_add_right _ _

theorem code_lt_taken {ls : List Nat} {i : Nat} (h : IsSymbol ls i) : code ls i < taken ls (ls.getD i 0) := by
  have hi := lt_length_of_isSymbol h
  have hsplit : ls.count (ls.getD i 0) = (ls.take i).count (ls.getD i 0) + (ls.drop i).count (ls.getD i 0) := by
    rw [← List.count_append, List.take_append_drop]
  have hhead : 0 < (ls.drop i).count (ls.getD i 0) := by
    rw [List.count_pos_iff, List.getD_eq_getElem _ _ hi, List.drop_eq_getElem_cons hi]
    exact List.mem_cons_self
  rw [code, taken, countOf, if_neg h]
  omega

/-- Symbols with one code are one. -/
theorem code_inj {ls : List Nat} {i j : Nat} (hi : IsSymbol ls i) (hj : IsSymbol ls j) (hl : ls.getD i 0 = ls.getD j 0)
    (hcode : code ls i = code ls j) : i = j := by
  have hlt : ∀ {i j : Nat}, IsSymbol ls i → ls.getD i 0 = ls.getD j 0 → i < j → code ls i < code ls j := by
    intro i j hi hl hlt
    have hlength := lt_length_of_isSymbol hi
    have hle : (ls.take (i + 1)).count (ls.getD i 0) ≤ (ls.take j).count (ls.getD i 0) :=
      (List.take_prefix_take_left (Nat.succ_le_of_lt hlt)).sublist.count_le _
    have hget : ls.getD i 0 = ls[i] := List.getD_eq_getElem _ _ hlength
    rw [List.take_succ_eq_append_getElem hlength, List.count_append, ← hget, List.count_singleton_self] at hle
    rw [code, code, ← hl]
    omega
  rcases Nat.lt_trichotomy i j with h | h | h
  · exact absurd hcode (Nat.ne_of_lt (hlt hi hl h))
  · exact h
  · exact absurd hcode.symm (Nat.ne_of_lt (hlt hj hl.symm h))

/-- No code is below the codes of a longer one. -/
theorem code_not_below {ls : List Nat} {i l : Nat} (hl : l < ls.getD i 0) :
    taken ls l ≤ code ls i / 2 ^ (ls.getD i 0 - l) := by
  obtain ⟨k, hk⟩ : ∃ k, ls.getD i 0 = l + k + 1 := ⟨ls.getD i 0 - l - 1, by omega⟩
  have hle := (firstCode_le_code ls i)
  rw [hk, firstCode_succ] at hle
  have hmul := taken_mul_le ls l k
  rw [Nat.le_div_iff_mul_le (Nat.two_pow_pos _), hk, show l + k + 1 - l = k + 1 by omega, Nat.pow_succ, ← Nat.mul_assoc]
  omega

/-- Below what is taken, some code stands in front. -/
theorem exists_code_above {ls : List Nat} {width v : Nat} (hv : v < taken ls width) :
    ∃ i, IsSymbol ls i ∧ ls.getD i 0 ≤ width ∧ code ls i = v / 2 ^ (width - ls.getD i 0) := by
  induction width generalizing v with
  | zero => exact absurd hv (Nat.not_lt_zero v)
  | succ width ih =>
    by_cases hfirst : firstCode ls (width + 1) ≤ v
    · obtain ⟨i, -, hget, hcode⟩ := exists_code (Nat.succ_ne_zero width) hfirst hv
      refine ⟨i, by rw [IsSymbol, hget]; exact Nat.succ_ne_zero width, hget.le, ?_⟩
      rw [hget, Nat.sub_self, Nat.pow_zero, Nat.div_one, hcode]
    · rw [firstCode_succ] at hfirst
      obtain ⟨i, hi, hle, hcode⟩ := ih (show v / 2 < taken ls width by omega)
      refine ⟨i, hi, by omega, ?_⟩
      rw [hcode, Nat.div_div_eq_div_mul, ← Nat.pow_succ', Nat.succ_sub hle]

end EvilHaxe.Zip.Canonical
