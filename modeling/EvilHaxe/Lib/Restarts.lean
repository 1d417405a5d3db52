/-
A scan for a word that starts again where it fails to go on, and so begins at some places of the text only.
-/
import Mathlib.Data.List.Basic

namespace Lib

variable {α : Type} [DecidableEq α]

/-- The length of the longest beginning that two lists share. -/
def common : List α → List α → Nat
  | x :: t, y :: s => if x = y then common t s + 1 else 0
  | _, _ => 0

/-- A scan of `s` for `t` that begins at the first place begins again at the second one: behind what it found of `t`, or one
place on where it found nothing. -/
inductive Restarts (t s : List α) : Nat → Nat → Prop
  | here (p : Nat) : Restarts t s p p
  | next {p q : Nat} (h : Restarts t s (p + max 1 (common t (s.drop p))) q) : Restarts t s p q

variable {t s : List α} {p q : Nat}

theorem common_nil : common t ([] : List α) = 0 := by
  cases t <;> rfl

theorem common_cons_self (x : α) : common (x :: t) (x :: s) = common t s + 1 := if_pos rfl

theorem common_cons_ne {x y : α} (h : x ≠ y) : common (x :: t) (y :: s) = 0 := if_neg h

theorem Restarts.le (h : Restarts t s p q) : p ≤ q := by
  induction h with
  | here => exact Nat.le_refl _
  | next h ih => omega

theorem restarts_iff :
    Restarts t s p q ↔ q = p ∨ Restarts t s (p + max 1 (common t (s.drop p))) q := by
  constructor
  · rintro (_ | h)
    · exact .inl rfl
    · exact .inr h
  · rintro (rfl | h)
    · exact .here _
    · exact .next h

end Lib
