/-
Stable sorting under a total preorder: the elements are the same, in order, and equal ones as they were.
-/
import Mathlib.Data.List.Perm.Basic

namespace Lib

/-- Equal elements need not be the same. -/
structure TotalPreorder {α : Type} (le : α → α → Prop) : Prop where
  total : ∀ a b, le a b ∨ le b a
  trans : ∀ {a b c}, le a b → le b c → le a c

theorem TotalPreorder.refl {α : Type} {le : α → α → Prop} (hle : TotalPreorder le) (a : α) : le a a :=
  (hle.total a a).elim id id

section

variable {α : Type} (le : α → α → Prop) [DecidableRel le]

/-- The elements of `xs` that are equal to `a`. -/
def alike (a : α) (xs : List α) : List α := xs.filter fun b => le a b ∧ le b a

/-- The same elements, and equal ones in the same order. -/
structure SameOrder (xs ys : List α) : Prop where
  perm : xs.Perm ys
  alike : ∀ a, alike le a xs = alike le a ys

structure StableSort (xs ys : List α) : Prop where
  sorted : ys.Pairwise le
  same : SameOrder le xs ys

end

section

variable {α : Type} {le : α → α → Prop} [DecidableRel le] {a b : α} (xs : List α)

theorem alike_cons_pos (h : le a b ∧ le b a) : alike le a (b :: xs) = b :: alike le a xs :=
  List.filter_cons_of_pos (decide_eq_true h)

theorem alike_cons_neg (h : ¬ (le a b ∧ le b a)) : alike le a (b :: xs) = alike le a xs :=
  List.filter_cons_of_neg (by simpa using h)

end

/-- A comparison function whose sign orders the elements. -/
structure Comparison {α : Type} (cmp : α → α → Int) : Prop where
  swap : ∀ x y, cmp x y < 0 ↔ 0 < cmp y x
  trans : ∀ {x y z}, cmp x y ≤ 0 → cmp y z ≤ 0 → cmp x z ≤ 0

def AtMost {α : Type} (cmp : α → α → Int) (x y : α) : Prop := cmp x y ≤ 0

instance {α : Type} {cmp : α → α → Int} : DecidableRel (AtMost cmp) := fun x y => inferInstanceAs (Decidable (cmp x y ≤ 0))

namespace Comparison

variable {α : Type} {cmp : α → α → Int}

theorem lt_iff (h : Comparison cmp) {x y : α} : cmp x y < 0 ↔ ¬ AtMost cmp y x := by
  rw [h.swap, AtMost, Int.not_le]

theorem atMost_of_not_lt (h : Comparison cmp) {x y : α} (hlt : ¬ cmp x y < 0) : AtMost cmp y x :=
  not_not.1 fun hle => hlt (h.lt_iff.2 hle)

theorem preorder (h : Comparison cmp) : TotalPreorder (AtMost cmp) where
  total x y := by
    have hswap := h.swap y x
    unfold AtMost
    omega
  trans := h.trans

end Comparison

variable {α : Type} {le : α → α → Prop} [DecidableRel le]

namespace SameOrder

theorem refl (xs : List α) : SameOrder le xs xs := ⟨.refl xs, fun _ => rfl⟩

theorem trans {xs ys zs : List α} (h : SameOrder le xs ys) (h' : SameOrder le ys zs) : SameOrder le xs zs :=
  ⟨h.perm.trans h'.perm, fun a => (h.alike a).trans (h'.alike a)⟩

theorem append {xs ys xs' ys' : List α} (h : SameOrder le xs ys) (h' : SameOrder le xs' ys') :
    SameOrder le (xs ++ xs') (ys ++ ys') where
  perm := h.perm.append h'.perm
  alike a := by
    have heq := h.alike a
    have heq' := h'.alike a
    unfold Lib.alike at heq heq' ⊢
    rw [List.filter_append, List.filter_append, heq, heq']

theorem append_left (xs : List α) {ys ys' : List α} (h : SameOrder le ys ys') : SameOrder le (xs ++ ys) (xs ++ ys') :=
  (refl xs).append h

/-- Two parts change places if all of the one is below all of the other. -/
theorem swap (hle : TotalPreorder le) {xs ys : List α} (h : ∀ x ∈ xs, ∀ y ∈ ys, ¬ le x y) : SameOrder le (xs ++ ys) (ys ++ xs) where
  perm := List.perm_append_comm
  alike a := by
    unfold Lib.alike
    rw [List.filter_append, List.filter_append]
    by_cases hx : xs.filter (fun b => decide (le a b ∧ le b a)) = []
    · rw [hx, List.nil_append, List.append_nil]
    · obtain ⟨x, hx⟩ := List.exists_mem_of_ne_nil _ hx
      have hy : ys.filter (fun b => decide (le a b ∧ le b a)) = [] := by
        rw [List.filter_eq_nil_iff]
        intro y hy hya
        rw [List.mem_filter, decide_eq_true_eq] at hx
        rw [decide_eq_true_eq] at hya
        exact h x hx.1 y hy (hle.trans hx.2.2 hya.1)
      rw [hy, List.nil_append, List.append_nil]

end SameOrder

namespace StableSort

theorem of_sorted {xs : List α} (h : xs.Pairwise le) : StableSort le xs xs := ⟨h, .refl xs⟩

theorem of_same {xs ys zs : List α} (hsame : SameOrder le xs ys) (h : StableSort le ys zs) : StableSort le xs zs :=
  ⟨h.sorted, hsame.trans h.same⟩

/-- Two sorted parts, the one all before the other. -/
theorem append {xs ys xs' ys' : List α} (h : StableSort le xs ys) (h' : StableSort le xs' ys')
    (hbefore : ∀ x ∈ xs, ∀ y ∈ xs', le x y) : StableSort le (xs ++ xs') (ys ++ ys') where
  sorted := by
    rw [List.pairwise_append]
    exact ⟨h.sorted, h'.sorted, fun x hx y hy =>
      hbefore x (h.same.perm.mem_iff.2 hx) y (h'.same.perm.mem_iff.2 hy)⟩
  same := h.same.append h'.same

/-- Two sorted rows are merged by parts: `l` and `r` change places, and each side is merged on its own. -/
theorem merge (hle : TotalPreorder le) {front l r back left right : List α} (hfront : (front ++ l).Pairwise le)
    (hback : (r ++ back).Pairwise le) (hswap : ∀ x ∈ l, ∀ y ∈ r, ¬ le x y) (hbefore : ∀ x ∈ front, ∀ y ∈ back, le x y)
    (hleft : StableSort le (front ++ r) left) (hright : StableSort le (l ++ back) right) :
    StableSort le (front ++ l ++ (r ++ back)) (left ++ right) := by
  have hsame : SameOrder le (front ++ l ++ (r ++ back)) (front ++ r ++ (l ++ back)) := by
    have h := (SameOrder.swap hle hswap).append_left front
    have h' := h.append (SameOrder.refl back)
    rwa [← List.append_assoc, ← List.append_assoc, List.append_assoc (front ++ l), List.append_assoc (front ++ r)] at h'
  refine of_same hsame (hleft.append hright fun x hx y hy => ?_)
  rw [List.pairwise_append] at hfront hback
  rcases List.mem_append.1 hx with hx | hx
  · rcases List.mem_append.1 hy with hy | hy
    · exact hfront.2.2 x hx y hy
    · exact hbefore x hx y hy
  · rcases List.mem_append.1 hy with hy | hy
    · exact (hle.total x y).resolve_right (hswap y hy x hx)
    · exact hback.2.2 x hx y hy

/-- An element goes behind those that it is not below. -/
theorem insert (hle : TotalPreorder le) {front back : List α} {a : α} (hsorted : (front ++ back).Pairwise le)
    (hfront : ∀ x ∈ front, le x a) (hback : ∀ x ∈ back, ¬ le x a) :
    StableSort le (front ++ back ++ [a]) (front ++ a :: back) where
  sorted := by
    rw [List.pairwise_append] at hsorted ⊢
    obtain ⟨hf, hb, hfb⟩ := hsorted
    refine ⟨hf, List.pairwise_cons.2 ⟨fun x hx => (hle.total a x).resolve_right (hback x hx), hb⟩, fun x hx y hy => ?_⟩
    rcases List.mem_cons.1 hy with rfl | hy
    · exact hfront x hx
    · exact hfb x hx y hy
  same := by
    have hswap : ∀ x ∈ back, ∀ y ∈ [a], ¬ le x y := fun x hx y hy => List.mem_singleton.1 hy ▸ hback x hx
    have h := (SameOrder.swap hle hswap).append_left front
    rwa [← List.append_assoc] at h

/-- Merging two sorted rows, the elements of the first one first. -/
theorem of_merge (hle : TotalPreorder le) {xs ys : List α} (hx : xs.Pairwise le) (hy : ys.Pairwise le) :
    StableSort le (xs ++ ys) (xs.merge ys fun a b => decide (le a b)) := by
  induction xs generalizing ys with
  | nil => simpa using of_sorted hy
  | cons x xs ihx =>
    induction ys with
    | nil => simpa using of_sorted hx
    | cons y ys ihy =>
      rw [List.pairwise_cons] at hx hy
      by_cases hxy : le x y
      · rw [List.cons_merge_cons_pos _ _ _ (decide_eq_true hxy)]
        have hrest := ihx hx.2 (List.pairwise_cons.2 hy)
        refine @append _ _ _ [x] [x] _ _ (of_sorted (List.pairwise_singleton _ x)) hrest fun a ha b hb => ?_
        rw [List.mem_singleton.1 ha]
        rcases List.mem_append.1 hb with hb | hb
        · exact hx.1 b hb
        · rcases List.mem_cons.1 hb with rfl | hb
          · exact hxy
          · exact hle.trans hxy (hy.1 b hb)
      · rw [List.cons_merge_cons_neg _ _ _ (by simpa using hxy)]
        have hyx : le y x := (hle.total x y).resolve_left hxy
        -- all that is left of the first row is above `y`
        have habove : ∀ a ∈ x :: xs, ∀ b ∈ [y], ¬ le a b := by
          intro a ha b hb hab
          rw [List.mem_singleton.1 hb] at hab
          rcases List.mem_cons.1 ha with rfl | ha
          · exact hxy hab
          · exact hxy (hle.trans (hx.1 a ha) hab)
        have hsame := (SameOrder.swap hle habove).append (.refl ys)
        rw [List.append_assoc] at hsame
        refine of_same hsame (@append _ _ _ [y] [y] _ _ (of_sorted (List.pairwise_singleton _ y)) (ihy hy.2) fun a ha b hb => ?_)
        rw [List.mem_singleton.1 ha]
        rcases List.mem_append.1 (show b ∈ x :: xs ++ ys from hb) with hb | hb
        · rcases List.mem_cons.1 hb with rfl | hb
          · exact hyx
          · exact hle.trans hyx (hx.1 b hb)
        · exact hy.1 b hb

/-- There is one stable sort only. -/
theorem unique (hle : TotalPreorder le) {xs ys zs : List α} (h : StableSort le xs ys) (h' : StableSort le xs zs) : ys = zs := by
  induction ys generalizing xs zs with
  | nil =>
    have hperm := h.same.perm.symm.trans h'.same.perm
    exact (List.nil_perm.1 hperm).symm
  | cons y ys ih =>
    have hperm := h.same.perm.symm.trans h'.same.perm
    cases zs with
    | nil => exact absurd hperm.length_eq (by simp)
    | cons z zs =>
      have hyz : le y z := by
        rcases List.mem_cons.1 (hperm.mem_iff.2 List.mem_cons_self) with rfl | hz
        · exact hle.refl z
        · exact (List.pairwise_cons.1 h.sorted).1 z hz
      have hzy : le z y := by
        rcases List.mem_cons.1 (hperm.mem_iff.1 List.mem_cons_self) with rfl | hy
        · exact hle.refl y
        · exact (List.pairwise_cons.1 h'.sorted).1 y hy
      have halike : ∀ a, alike le a (y :: ys) = alike le a (z :: zs) := fun a => by
        rw [← h.same.alike a, h'.same.alike a]
      have hfirst := halike y
      rw [alike_cons_pos ys ⟨hle.refl y, hle.refl y⟩, alike_cons_pos zs ⟨hyz, hzy⟩] at hfirst
      obtain rfl := (List.cons.inj hfirst).1
      have hrest : SameOrder le ys zs := ⟨hperm.cons_inv, fun a => by
        have ha := halike a
        by_cases hay : le a y ∧ le y a
        · rw [alike_cons_pos ys hay, alike_cons_pos zs hay] at ha
          exact (List.cons.inj ha).2
        · rwa [alike_cons_neg ys hay, alike_cons_neg zs hay] at ha⟩
      rw [ih (of_sorted h.sorted.of_cons) ⟨h'.sorted.of_cons, hrest⟩]

end StableSort

end Lib
