/-
Balanced words of labelled brackets, and what they do to a stack.
-/
import Mathlib.Data.List.Basic

namespace Lib

inductive Bracket (β : Type) where
  | opening (b : β)
  | closing (b : β)

variable {β γ : Type}

/-- Balanced and properly nested, with one label for each pair. -/
inductive Balanced : List (Bracket β) → Prop where
  | nil : Balanced []
  | pair {b : β} {w w' : List (Bracket β)} (h : Balanced w) (h' : Balanced w') :
    Balanced (.opening b :: w ++ .closing b :: w')

namespace Balanced

theorem append {w w' : List (Bracket β)} (h : Balanced w) (h' : Balanced w') : Balanced (w ++ w') := by
  induction h with
  | nil => exact h'
  | @pair b u v hu _ _ ih =>
    have := pair (b := b) hu ih
    simpa using this

/-- A pair with balanced words before its opening, around it, between and after. -/
theorem around {b : β} {u v w x y : List (Bracket β)} (hu : Balanced u) (hv : Balanced v) (hw : Balanced w)
    (hx : Balanced x) (hy : Balanced y) :
    Balanced ((u ++ .opening b :: v) ++ w ++ (x ++ .closing b :: y)) := by
  have h : Balanced (.opening b :: (v ++ (w ++ x)) ++ .closing b :: y) := pair (hv.append (hw.append hx)) hy
  simpa using hu.append h

end Balanced

/-- A stack on which an opening bracket pushes and a closing one pops. -/
def stackStep (push : β → γ) (st : List γ) : Bracket β → List γ
  | .opening b => push b :: st
  | .closing _ => st.tail

/-- A balanced word leaves the stack as it was. -/
theorem Balanced.foldl_stackStep (push : β → γ) {w : List (Bracket β)} (h : Balanced w) :
    ∀ st : List γ, w.foldl (stackStep push) st = st := by
  induction h with
  | nil => exact fun _ => rfl
  | pair _ _ ih ih' =>
    intro st
    rw [List.foldl_append, List.foldl_cons, List.foldl_cons, ih]
    exact ih' st

/-- A balanced word that is not empty starts with an opening bracket and has a closing one. -/
theorem Balanced.closing_mem {b : β} {w : List (Bracket β)} (h : Balanced (.opening b :: w)) :
    Bracket.closing b ∈ w := by
  generalize hx : Bracket.opening b :: w = x at h
  cases h with
  | nil => cases hx
  | pair _ _ =>
    rw [List.cons_append, List.cons.injEq, Bracket.opening.injEq] at hx
    obtain ⟨rfl, rfl⟩ := hx
    exact List.mem_append_right _ (List.mem_cons_self ..)

end Lib
