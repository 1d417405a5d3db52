/-
References to what has been written: a copy that begins `d` elements from the end, and may reach into itself.
-/
import Mathlib.Data.List.GetD

namespace Lib

variable {α : Type} [Inhabited α]

/-- The next `n` elements, each of them the one `d` before it. -/
def copied (d : Nat) : Nat → List α → List α
  | 0, _ => []
  | n + 1, history =>
    let a := history.getD (history.length - d) default
    a :: copied d n (history ++ [a])

@[simp] theorem length_copied (d n : Nat) (history : List α) : (copied d n history).length = n := by
  induction n generalizing history with
  | zero => rfl
  | succ n ih => rw [copied, List.length_cons, ih]

theorem copied_add (d m n : Nat) (history : List α) :
    copied d (m + n) history = copied d m history ++ copied d n (history ++ copied d m history) := by
  induction m generalizing history with
  | zero => rw [Nat.zero_add, copied, List.append_nil, List.nil_append]
  | succ m ih =>
    rw [Nat.succ_add, copied, copied, ih, List.cons_append, List.append_assoc]
    rfl

/-- A copy that is no longer than its distance is a part of the history. -/
theorem copied_of_le {d n : Nat} {history : List α} (hn : n ≤ d) (hd : d ≤ history.length) :
    copied d n history = (history.drop (history.length - d)).take n := by
  induction n generalizing history with
  | zero => rfl
  | succ n ih =>
    have hlt : history.length - d < history.length := by omega
    have hnext : (history ++ [history[history.length - d]]).length - d = history.length - d + 1 := by
      rw [List.length_append, List.length_singleton]
      omega
    rw [copied, List.getD_eq_getElem _ _ hlt, List.drop_eq_getElem_cons hlt, List.take_succ_cons]
    rw [ih (by omega) (by rw [List.length_append]; omega), hnext, List.drop_append_of_le_length (by omega)]
    rw [List.take_append_of_le_length (by rw [List.length_drop]; omega)]

/-- At the distance one the last element is repeated. -/
theorem copied_one (n : Nat) (front : List α) (a : α) : copied 1 n (front ++ [a]) = List.replicate n a := by
  induction n generalizing front with
  | zero => rfl
  | succ n ih =>
    have hlast : (front ++ [a]).getD ((front ++ [a]).length - 1) default = a := by
      rw [List.length_append, List.length_singleton, Nat.add_sub_cancel, List.getD_append_right _ _ _ _ (Nat.le_refl _),
        Nat.sub_self]
      rfl
    rw [copied, hlast, ih, List.replicate_succ]

end Lib
