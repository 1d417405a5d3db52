/-
Steps in a tree whose nodes have names: staying, going up and going down. A place is the list of names on the way to it
from the root, the last one first; above the root there is nothing.
-/
import Mathlib.Data.List.Induction

namespace Lib

inductive Step (α : Type) where
  | here
  | up
  | down (name : α)
  deriving DecidableEq

namespace Step

variable {α : Type}

def move (place : List α) : Step α → List α
  | .here => place
  | .up => place.tail
  | .down name => name :: place

def walk (place : List α) (steps : List (Step α)) : List α := steps.foldl move place

@[simp] theorem walk_nil (place : List α) : walk place [] = place := rfl

@[simp] theorem walk_cons (place : List α) (s : Step α) (steps : List (Step α)) :
    walk place (s :: steps) = walk (move place s) steps := rfl

theorem walk_append (place : List α) (steps steps' : List (Step α)) :
    walk place (steps ++ steps') = walk (walk place steps) steps' := List.foldl_append

theorem walk_down (place names : List α) : walk place (names.map .down) = names.reverse ++ place := by
  induction names generalizing place with
  | nil => rfl
  | cons name names ih => simp [ih, move]

/-- What the names of a place satisfy if the names of the steps to it do. -/
theorem walk_mem {P : α → Prop} {place : List α} {steps : List (Step α)} (hplace : ∀ a ∈ place, P a)
    (hsteps : ∀ a, .down a ∈ steps → P a) : ∀ a ∈ walk place steps, P a := by
  induction steps generalizing place with
  | nil => exact hplace
  | cons s steps ih =>
    refine ih (fun a ha => ?_) fun a ha => hsteps a (List.mem_cons_of_mem s ha)
    cases s with
    | here => exact hplace a ha
    | up => exact hplace a (List.mem_of_mem_tail ha)
    | down name =>
      rcases List.mem_cons.1 ha with rfl | ha
      · exact hsteps _ List.mem_cons_self
      · exact hplace a ha

/-! ## From the last step back -/

/-- One step taken from the end of a way: the names that are left, and how many more are to be skipped. -/
def back (state : List α × Nat) : Step α → List α × Nat
  | .here => state
  | .up => (state.1, state.2 + 1)
  | .down name =>
    match state.2 with
    | 0 => (name :: state.1, 0)
    | skip + 1 => (state.1, skip)

/-- Going back from the end with a count of the names to skip leads to the same names as walking from the root. -/
theorem foldr_back (steps : List (Step α)) (names : List α) (skip : Nat) :
    (steps.reverse.foldl back (names, skip)).1 = ((walk [] steps).drop skip).reverse ++ names := by
  induction steps using List.reverseRecOn generalizing names skip with
  | nil => simp
  | append_singleton steps s ih =>
    rw [List.reverse_append, List.reverse_singleton, List.singleton_append, List.foldl_cons, walk_append, walk_cons,
      walk_nil]
    cases s with
    | here => exact ih names skip
    | up =>
      rw [back, ih, move, List.drop_tail]
    | down name =>
      cases skip with
      | zero =>
        rw [back, ih, move]
        simp
      | succ skip => rw [back, ih, move, List.drop_succ_cons]

end Step

end Lib
