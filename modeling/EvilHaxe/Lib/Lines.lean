/-
Lists that are written one behind the other, each with a separator at its end.
-/
import Mathlib.Data.List.Basic

namespace Lib

variable {α : Type} [BEq α] [LawfulBEq α] {sep : α}

/-- No part of a list that is split contains the separator. -/
theorem not_mem_of_mem_splitOn {xs l : List α} (h : l ∈ xs.splitOn sep) : sep ∉ l := by
  induction xs generalizing l with
  | nil =>
    rw [List.splitOn_nil, List.mem_singleton] at h
    simp [h]
  | cons x xs ih =>
    rw [List.splitOn_cons_eq_if_modifyHead] at h
    split at h
    · rcases List.mem_cons.mp h with rfl | h
      · exact List.not_mem_nil
      · exact ih h
    · rename_i hx
      obtain ⟨l', ls, hls⟩ := List.exists_cons_of_ne_nil (List.splitOn_ne_nil sep xs)
      rw [hls, List.modifyHead_cons] at h
      rcases List.mem_cons.mp h with rfl | h
      · have hne : sep ≠ x := fun heq => hx (by simp [heq])
        simpa [hne] using ih (hls ▸ List.mem_cons_self)
      · exact ih (hls ▸ List.mem_cons_of_mem _ h)

omit [BEq α] [LawfulBEq α] in
theorem mem_of_mem_intercalate {a : α} {ls : List (List α)} (h : a ∈ [sep].intercalate ls) :
    a = sep ∨ ∃ l ∈ ls, a ∈ l := by
  induction ls with
  | nil => cases h
  | cons l ls ih =>
    cases ls with
    | nil => exact .inr ⟨l, List.mem_cons_self, by simpa using h⟩
    | cons l' ls =>
      rw [List.intercalate_cons_cons, List.mem_append, List.mem_append, List.mem_singleton] at h
      rcases h with (h | h) | h
      · exact .inr ⟨l, List.mem_cons_self, h⟩
      · exact .inl h
      · exact (ih h).imp_right fun ⟨l, hl, ha⟩ => ⟨l, List.mem_cons_of_mem _ hl, ha⟩

omit [BEq α] [LawfulBEq α] in
theorem mem_intercalate_of_mem {a : α} {l : List α} {ls : List (List α)} (hl : l ∈ ls) (ha : a ∈ l) :
    a ∈ [sep].intercalate ls := by
  induction ls with
  | nil => cases hl
  | cons l' ls ih =>
    cases ls with
    | nil =>
      obtain rfl := List.mem_singleton.mp hl
      simpa using ha
    | cons l'' ls =>
      rw [List.intercalate_cons_cons, List.mem_append, List.mem_append]
      rcases List.mem_cons.mp hl with rfl | hl
      · exact .inl (.inl ha)
      · exact .inr (ih hl)

/-- The lists, each with `sep` behind it. -/
def unlines (sep : α) (ls : List (List α)) : List α := ls.flatMap (· ++ [sep])

omit [BEq α] [LawfulBEq α] in
theorem unlines_append (ls ls' : List (List α)) : unlines sep (ls ++ ls') = unlines sep ls ++ unlines sep ls' :=
  List.flatMap_append

omit [BEq α] [LawfulBEq α] in
theorem intercalate_append_sep {ls : List (List α)} (h : ls ≠ []) : [sep].intercalate ls ++ [sep] = unlines sep ls := by
  induction ls with
  | nil => exact absurd rfl h
  | cons l ls ih =>
    cases ls with
    | nil => simp [unlines]
    | cons l' ls =>
      rw [List.intercalate_cons_cons, List.append_assoc, ih (by simp)]
      simp [unlines]

omit [BEq α] [LawfulBEq α] in
theorem intercalate_append_cons (ls : List (List α)) (l : List α) (ls' : List (List α)) :
    [sep].intercalate (ls ++ l :: ls') = unlines sep ls ++ [sep].intercalate (l :: ls') := by
  induction ls with
  | nil => rfl
  | cons first ls ih =>
    obtain ⟨second, others, h⟩ := List.exists_cons_of_ne_nil (List.append_ne_nil_of_right_ne_nil ls (List.cons_ne_nil l ls'))
    rw [h] at ih
    rw [List.cons_append, h, List.intercalate_cons_cons, ih]
    simp [unlines]

theorem splitOn_unlines {ls : List (List α)} (h : ∀ l ∈ ls, sep ∉ l) : (unlines sep ls).splitOn sep = ls ++ [[]] := by
  induction ls with
  | nil => rfl
  | cons l ls ih =>
    have hrest := ih fun l' hl' => h l' (List.mem_cons_of_mem _ hl')
    rw [unlines, List.flatMap_cons, List.append_assoc, List.singleton_append,
      List.splitOn_append_cons_self_of_not_mem (h l List.mem_cons_self)]
    exact congrArg _ hrest

theorem unlines_injective {ls ls' : List (List α)} (h : ∀ l ∈ ls, sep ∉ l) (h' : ∀ l ∈ ls', sep ∉ l)
    (heq : unlines sep ls = unlines sep ls') : ls = ls' := by
  have := splitOn_unlines h
  rw [heq, splitOn_unlines h'] at this
  exact (List.append_cancel_right this).symm

omit [BEq α] [LawfulBEq α] in
theorem getLast?_unlines {ls : List (List α)} (h : ls ≠ []) : (unlines sep ls).getLast? = some sep := by
  rw [← intercalate_append_sep h, List.getLast?_append]
  rfl

omit [BEq α] [LawfulBEq α] in
/-- The end of a list of lines is empty or ends in the separator. -/
theorem suffix_unlines {xs ys : List α} {ls : List (List α)} (h : xs ++ ys = unlines sep ls) :
    ys = [] ∨ ys.getLast? = some sep := by
  cases ys with
  | nil => exact .inl rfl
  | cons y ys =>
    have hls : ls ≠ [] := by
      rintro rfl
      simp [unlines] at h
    have hlast : (unlines sep ls).getLast? = some sep := getLast?_unlines hls
    rw [← h, List.getLast?_append_of_ne_nil _ (List.cons_ne_nil y ys)] at hlast
    exact .inr hlast

/-- What ends in the separator is made of lines. -/
theorem exists_unlines {xs : List α} (h : xs = [] ∨ xs.getLast? = some sep) :
    ∃ ls, xs = unlines sep ls ∧ ∀ l ∈ ls, sep ∉ l := by
  rcases h with rfl | h
  · exact ⟨[], rfl, fun _ hl => nomatch hl⟩
  · obtain ⟨ys, rfl⟩ := List.getLast?_eq_some_iff.mp h
    refine ⟨ys.splitOn sep, ?_, fun l hl => not_mem_of_mem_splitOn hl⟩
    rw [← intercalate_append_sep (List.splitOn_ne_nil sep ys), List.intercalate_splitOn]

end Lib
