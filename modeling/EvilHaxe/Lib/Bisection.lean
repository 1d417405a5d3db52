/-
Bisection: between a number that has a property and one that has it not there is a last one that has it.
-/
import Mathlib.Data.List.Pairwise

namespace Lib

/-- The halving search. It stops when nothing lies between its bounds any more. -/
def bisect (below : Nat → Bool) : Nat → Nat → Nat → Option Nat
  | 0, _, _ => none
  | fuel + 1, lo, hi =>
    let med := (lo + hi) / 2
    if med = lo then some lo else if below med then bisect below fuel med hi else bisect below fuel lo med

/-- With fuel for the interval the search ends, at a place where the property changes. -/
theorem bisect_spec {below : Nat → Bool} {fuel lo hi : Nat} (hlt : lo < hi) (hfuel : hi - lo ≤ fuel)
    (hlo : below lo = true) (hhi : below hi = false) :
    ∃ r, bisect below fuel lo hi = some r ∧ lo ≤ r ∧ r < hi ∧ below r = true ∧ below (r + 1) = false := by
  induction fuel generalizing lo hi with
  | zero => omega
  | succ fuel ih =>
    simp only [bisect]
    split
    next hmed =>
      -- only `lo` is left
      have hnext : hi = lo + 1 := by omega
      exact ⟨lo, rfl, Nat.le_refl lo, hlt, hlo, hnext ▸ hhi⟩
    next hmed =>
      cases hbelow : below ((lo + hi) / 2) with
      | true =>
        obtain ⟨r, hr, hle, hrest⟩ := @ih ((lo + hi) / 2) hi (by omega) (by omega) hbelow hhi
        exact ⟨r, hr, by omega, hrest⟩
      | false =>
        obtain ⟨r, hr, hle, hrlt, hrest⟩ := @ih lo ((lo + hi) / 2) (by omega) (by omega) hlo hbelow
        exact ⟨r, hr, hle, by omega, hrest⟩

section

variable {α : Type} {key : α → Nat}

/-- In a list whose keys decrease, the first entry that is not above a bound is the one with the greatest such key. -/
theorem find?_eq_some_iff_of_decreasing {l : List α} (hl : l.Pairwise fun a b => key b < key a) {p : Nat} {e : α} :
    l.find? (fun a => key a ≤ p) = some e ↔ e ∈ l ∧ key e ≤ p ∧ ∀ a ∈ l, key a ≤ p → key a ≤ key e := by
  induction l with
  | nil => simp
  | cons a l ih =>
    rw [List.pairwise_cons] at hl
    by_cases ha : key a ≤ p
    · rw [List.find?_cons_of_pos (by simpa using ha)]
      constructor
      · rintro h
        obtain rfl := Option.some.inj h
        refine ⟨List.mem_cons_self, ha, fun b hb _ => ?_⟩
        rcases List.mem_cons.1 hb with rfl | hb
        · exact Nat.le_refl _
        · exact Nat.le_of_lt (hl.1 b hb)
      · rintro ⟨hmem, -, hmax⟩
        rcases List.mem_cons.1 hmem with rfl | hmem
        · rfl
        · have hlt := hl.1 e hmem
          have hle := hmax a List.mem_cons_self ha
          omega
    · rw [List.find?_cons_of_neg (by simpa using ha), ih hl.2]
      constructor
      · rintro ⟨hmem, he, hmax⟩
        refine ⟨List.mem_cons_of_mem a hmem, he, fun b hb hbp => ?_⟩
        rcases List.mem_cons.1 hb with rfl | hb
        · exact absurd hbp ha
        · exact hmax b hb hbp
      · rintro ⟨hmem, he, hmax⟩
        rcases List.mem_cons.1 hmem with rfl | hmem
        · exact absurd he ha
        · exact ⟨hmem, he, fun b hb => hmax b (List.mem_cons_of_mem a hb)⟩

end

end Lib
