/-
Parts joined by a separator that may stand inside them too. Within a part a mark follows every separator, so a
text can be taken apart again as long as no part contains the mark.
-/
import EvilHaxe.Lib.Lines

namespace Lib

section

variable {α : Type} [DecidableEq α] {sep mark : α}

/-- A part with a mark behind each of its separators. -/
def marked (sep mark : α) : List α → List α
  | [] => []
  | a :: part => if a = sep then sep :: mark :: marked sep mark part else a :: marked sep mark part

/-- The parts of a text. Only a separator without a mark ends a part. -/
def unmark (sep mark : α) : List α → List (List α)
  | [] => [[]]
  | [a] => if a = sep then [[], []] else [[a]]
  | a :: b :: text =>
    if a = sep then
      if b = mark then (unmark sep mark text).modifyHead (sep :: ·) else [] :: unmark sep mark (b :: text)
    else (unmark sep mark (b :: text)).modifyHead (a :: ·)

/-! ## Splitting -/

theorem marked_eq_intercalate (part : List α) : [sep, mark].intercalate (part.splitOn sep) = marked sep mark part := by
  induction part with
  | nil => rfl
  | cons a part ih =>
    obtain ⟨first, others, hsplit⟩ := List.exists_cons_of_ne_nil (List.splitOn_ne_nil sep part)
    rw [hsplit] at ih
    rw [List.splitOn_cons_eq_if_modifyHead, hsplit, marked]
    by_cases ha : a = sep
    · subst ha
      rw [if_pos (beq_self_eq_true a), if_pos rfl, List.intercalate_cons_cons, ih]
      rfl
    · rw [if_neg (by simpa using ha), if_neg ha, ← ih]
      cases others with
      | nil => simp
      | cons second others => simp [List.intercalate_cons_cons]

/-! ## Taking a text apart -/

theorem unmark_cons {a : α} (ha : a ≠ sep) (text : List α) :
    unmark sep mark (a :: text) = (unmark sep mark text).modifyHead (a :: ·) := by
  cases text with
  | nil => simp [unmark, ha]
  | cons b text => rw [unmark, if_neg ha]

theorem unmark_sep {text : List α} (htext : text.head? ≠ some mark) :
    unmark sep mark (sep :: text) = [] :: unmark sep mark text := by
  cases text with
  | nil => simp [unmark]
  | cons b text =>
    have hb : b ≠ mark := fun h => htext (congrArg some h)
    rw [unmark, if_pos rfl, if_neg hb]

theorem unmark_marked {part : List α} (hpart : mark ∉ part) (text : List α) :
    unmark sep mark (marked sep mark part ++ text) = (unmark sep mark text).modifyHead (part ++ ·) := by
  induction part with
  | nil => exact (congrFun List.modifyHead_id _).symm
  | cons a part ih =>
    have ih := ih fun h => hpart (List.mem_cons_of_mem _ h)
    rw [marked]
    by_cases ha : a = sep
    · subst ha
      rw [if_pos rfl, List.cons_append, List.cons_append, unmark, if_pos rfl, if_pos rfl, ih, List.modifyHead_modifyHead]
      rfl
    · rw [if_neg ha, List.cons_append, unmark_cons ha, ih, List.modifyHead_modifyHead]
      rfl

/-- What a part becomes never begins with the mark. -/
theorem head?_marked (hne : sep ≠ mark) {part : List α} (hpart : mark ∉ part) {text : List α}
    (htext : text.head? ≠ some mark) : (marked sep mark part ++ text).head? ≠ some mark := by
  cases part with
  | nil => exact htext
  | cons a part =>
    rw [marked]
    split
    · simpa using hne
    · have ha : a ≠ mark := fun h => hpart (h ▸ List.mem_cons_self)
      simpa using ha

theorem head?_intercalate_marked (hne : sep ≠ mark) {parts : List (List α)} (hparts : ∀ part ∈ parts, mark ∉ part) :
    ([sep].intercalate (parts.map (marked sep mark))).head? ≠ some mark := by
  cases parts with
  | nil => simp
  | cons part parts =>
    have hpart := hparts part List.mem_cons_self
    cases parts with
    | nil =>
      rw [List.map_singleton, List.intercalate_singleton]
      have h := @head?_marked _ _ sep mark hne part hpart [] (by simp)
      simpa using h
    | cons part' parts =>
      rw [List.map_cons, List.map_cons, List.intercalate_cons_cons, List.append_assoc]
      exact head?_marked hne hpart (by simpa using hne)

/-- A text falls into the parts it was joined from. -/
theorem unmark_intercalate (hne : sep ≠ mark) {parts : List (List α)} (hnil : parts ≠ [])
    (hparts : ∀ part ∈ parts, mark ∉ part) :
    unmark sep mark ([sep].intercalate (parts.map (marked sep mark))) = parts := by
  induction parts with
  | nil => exact absurd rfl hnil
  | cons part parts ih =>
    have hpart := hparts part List.mem_cons_self
    have hrest : ∀ p ∈ parts, mark ∉ p := fun p hp => hparts p (List.mem_cons_of_mem _ hp)
    cases parts with
    | nil =>
      have h : unmark sep mark (marked sep mark part ++ []) = _ := unmark_marked hpart []
      rw [List.append_nil] at h
      rw [List.map_singleton, List.intercalate_singleton, h]
      simp [unmark]
    | cons part' parts =>
      have hhead := head?_intercalate_marked hne hrest
      have ih := ih (List.cons_ne_nil _ _) hrest
      rw [List.map_cons] at ih hhead
      rw [List.map_cons, List.map_cons, List.intercalate_cons_cons, List.append_assoc, unmark_marked hpart,
        List.singleton_append, unmark_sep hhead, ih]
      simp

/-- Parts without the mark are told apart by the text they make. -/
theorem intercalate_marked_inj (hne : sep ≠ mark) {parts parts' : List (List α)} (hnil : parts ≠ []) (hnil' : parts' ≠ [])
    (hparts : ∀ part ∈ parts, mark ∉ part) (hparts' : ∀ part ∈ parts', mark ∉ part)
    (h : [sep].intercalate (parts.map (marked sep mark)) = [sep].intercalate (parts'.map (marked sep mark))) :
    parts = parts' := by
  calc parts = unmark sep mark ([sep].intercalate (parts.map (marked sep mark))) :=
        (unmark_intercalate hne hnil hparts).symm
    _ = unmark sep mark ([sep].intercalate (parts'.map (marked sep mark))) := congrArg _ h
    _ = parts' := unmark_intercalate hne hnil' hparts'

end

end Lib
