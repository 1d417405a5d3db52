/-
Linked lists in a heap: following the links of `next` from `p` one comes past the nodes `xs`.
-/
import Mathlib.Logic.Function.Basic
import Mathlib.Data.List.Nodup

namespace Lib

variable {N : Type}

/-- From `p` the links lead past `xs` and on to `r`. -/
def Linked (next : N → Option N) : Option N → List N → Option N → Prop
  | p, [], r => p = r
  | p, x :: xs, r => p = some x ∧ Linked next (next x) xs r

/-- The link of each node leads back to the one before, and that of the first one to `t`. -/
def Backed (prev : N → Option N) : Option N → List N → Prop
  | _, [] => True
  | t, x :: xs => prev x = t ∧ Backed prev (some x) xs

section

variable {next next' : N → Option N} {p r : Option N} {xs ys : List N}

theorem linked_append : Linked next p (xs ++ ys) r ↔ ∃ m, Linked next p xs m ∧ Linked next m ys r := by
  induction xs generalizing p with
  | nil =>
    constructor
    · intro h
      exact ⟨p, rfl, h⟩
    · rintro ⟨m, rfl, h⟩
      exact h
  | cons x xs ih =>
    constructor
    · rintro ⟨hp, h⟩
      obtain ⟨m, h1, h2⟩ := ih.1 h
      exact ⟨m, ⟨hp, h1⟩, h2⟩
    · rintro ⟨m, ⟨hp, h1⟩, h2⟩
      exact ⟨hp, ih.2 ⟨m, h1, h2⟩⟩

theorem Linked.congr (h : Linked next p xs r) (heq : ∀ x ∈ xs, next' x = next x) : Linked next' p xs r := by
  induction xs generalizing p with
  | nil => exact h
  | cons x xs ih =>
    refine ⟨h.1, ?_⟩
    rw [heq x List.mem_cons_self]
    exact ih h.2 fun y hy => heq y (List.mem_cons_of_mem x hy)

/-- The nodes up to the end of the list are determined by where one starts. -/
theorem Linked.unique (h : Linked next p xs none) (h' : Linked next p ys none) : xs = ys := by
  induction xs generalizing p ys with
  | nil =>
    cases ys with
    | nil => rfl
    | cons y ys => exact absurd (h.symm.trans h'.1) (by simp)
  | cons x xs ih =>
    cases ys with
    | nil => exact absurd (h.1.symm.trans h') (by simp)
    | cons y ys =>
      obtain rfl := Option.some.inj (h.1.symm.trans h'.1)
      rw [ih h.2 h'.2]

/-- A list that ends has no node twice. -/
theorem Linked.nodup (h : Linked next p xs none) : xs.Nodup := by
  induction xs generalizing p with
  | nil => exact List.nodup_nil
  | cons x xs ih =>
    refine List.nodup_cons.2 ⟨fun hx => ?_, ih h.2⟩
    obtain ⟨front, back, rfl⟩ := List.append_of_mem hx
    obtain ⟨m, -, hm⟩ := linked_append.1 h.2
    -- the list behind `x` would be a part of itself
    have hback := h.2.unique hm.2
    have hlen := congrArg List.length hback
    rw [List.length_append, List.length_cons] at hlen
    omega

theorem Linked.eq_head? (h : Linked next p xs none) : p = xs.head? := by
  cases xs with
  | nil => exact h
  | cons x xs => exact h.1

/-- The last node is linked anew. -/
theorem Linked.update [DecidableEq N] {t : N} (h : Linked next p (xs ++ [t]) r) (ht : t ∉ xs) (r' : Option N) :
    Linked (Function.update next t r') p (xs ++ [t]) r' := by
  obtain ⟨m, h1, h2⟩ := linked_append.1 h
  refine linked_append.2 ⟨m, h1.congr fun x hx => Function.update_of_ne (by rintro rfl; exact ht hx) _ _, h2.1, ?_⟩
  exact Function.update_self t r' next

theorem backed_append {t : Option N} : Backed next t (xs ++ ys) ↔ Backed next t xs ∧ Backed next (xs.getLast?.or t) ys := by
  induction xs generalizing t with
  | nil => exact ⟨fun h => ⟨trivial, h⟩, And.right⟩
  | cons x xs ih =>
    have hlast : ((x :: xs).getLast?).or t = (xs.getLast?).or (some x) := by
      rw [List.getLast?_cons]
      cases xs.getLast? <;> rfl
    rw [List.cons_append, Backed, ih, Backed, hlast, and_assoc]

theorem Backed.congr {t : Option N} (h : Backed next t xs) (heq : ∀ x ∈ xs, next' x = next x) : Backed next' t xs := by
  induction xs generalizing t with
  | nil => trivial
  | cons x xs ih =>
    refine ⟨?_, ih h.2 fun y hy => heq y (List.mem_cons_of_mem x hy)⟩
    rw [heq x List.mem_cons_self, h.1]

end

end Lib
