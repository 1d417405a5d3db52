/-
`ArraySort.sort` sorts stably, until the sum of two indices leaves the range of `Int`.
-/
import EvilHaxe.Ds.ArraySort

namespace EvilHaxe.Ds.ArraySort

open Lib

variable {α : Type} {cmp : α → α → Int}

/-! ## The insertion sort -/

/-- An element sinks below those that are greater: the ones it has passed lie in `behind`. -/
theorem sink_spec (hcmp : Comparison cmp) {pre front behind post : List α} {x : α} {fuel : Nat}
    (hsorted : (front ++ behind).Pairwise (AtMost cmp)) (hbehind : ∀ y ∈ behind, ¬ AtMost cmp y x) (hfuel : front.length < fuel) :
    ∃ out, sink cmp pre.length fuel (pre ++ front ++ x :: behind ++ post) (pre.length + front.length : Nat) = some (pre ++ out ++ post) ∧
      StableSort (AtMost cmp) (front ++ behind ++ [x]) out := by
  induction fuel generalizing front behind with
  | zero => omega
  | succ fuel ih =>
    rw [sink]
    rcases List.eq_nil_or_concat front with rfl | ⟨front, y, rfl⟩
    · rw [if_neg (by simp)]
      exact ⟨x :: behind, by simp, StableSort.insert hcmp.preorder hsorted (by simp) hbehind⟩
    · rw [List.concat_eq_append] at hsorted hfuel ⊢
      rw [List.length_append, List.length_singleton] at hfuel ⊢
      have harray : pre ++ (front ++ [y]) ++ x :: behind ++ post = (pre ++ front) ++ y :: x :: (behind ++ post) := by simp
      have hj : ((pre.length + (front.length + 1) : Nat) : Int) = ((pre ++ front).length + 1 : Nat) := by simp; omega
      have hj' : (((pre ++ front).length + 1 : Nat) : Int) - 1 = (pre ++ front).length := by omega
      rw [if_pos (by omega), harray, hj, hj', compare_neighbours, swap_neighbours]
      simp only [Option.bind_eq_bind, Option.bind_some]
      split
      next hlt =>
        obtain ⟨out, hout, hstable⟩ := @ih front (y :: behind) (by simpa using hsorted)
          (List.forall_mem_cons.2 ⟨hcmp.lt_iff.1 hlt, hbehind⟩) (by omega)
        exact ⟨out, by simpa using hout, by simpa using hstable⟩
      next hlt =>
        have hyx : AtMost cmp y x := hcmp.atMost_of_not_lt hlt
        refine ⟨front ++ [y] ++ x :: behind, by simp, StableSort.insert hcmp.preorder hsorted (fun z hz => ?_) hbehind⟩
        rcases List.mem_append.1 hz with hz | hz
        · rw [List.append_assoc, List.pairwise_append] at hsorted
          exact hcmp.trans (hsorted.2.2 z hz y (by simp)) hyx
        · rwa [List.mem_singleton.1 hz]

theorem insertion_spec (hcmp : Comparison cmp) {pre xs front todo post : List α} {fuel : Nat}
    (hfront : StableSort (AtMost cmp) xs front) (hfuel : front.length + 2 * todo.length < fuel) :
    ∃ out, insertion cmp pre.length (pre.length + front.length + todo.length : Nat) fuel (pre ++ front ++ todo ++ post)
        (pre.length + front.length : Nat) = some (pre ++ out ++ post) ∧ StableSort (AtMost cmp) (xs ++ todo) out := by
  induction fuel generalizing xs front todo with
  | zero => omega
  | succ fuel ih =>
    rw [insertion]
    cases todo with
    | nil =>
      rw [if_neg (by simp)]
      exact ⟨front, by simp, by simpa using hfront⟩
    | cons x todo =>
      rw [List.length_cons] at hfuel ⊢
      obtain ⟨front', hsink, hfront'⟩ := @sink_spec _ _ hcmp pre front [] (todo ++ post) x fuel
        (by simpa using hfront.sorted) (by simp) (by omega)
      have hlen : front'.length = front.length + 1 := by
        rw [← hfront'.same.perm.length_eq, List.append_nil, List.length_append, List.length_singleton]
      have hnext : StableSort (AtMost cmp) (xs ++ [x]) front' :=
        .of_same (hfront.same.append (.refl [x])) (by simpa using hfront')
      obtain ⟨out, hout, hstable⟩ := ih hnext (show front'.length + 2 * todo.length < fuel by omega)
      refine ⟨out, ?_, by simpa using hstable⟩
      have hi : ((pre.length + front.length : Nat) : Int) + 1 = (pre.length + front'.length : Nat) := by omega
      have hstop : pre.length + front.length + (todo.length + 1) = pre.length + front'.length + todo.length := by omega
      have harray : pre ++ front ++ x :: todo ++ post = pre ++ front ++ [x] ++ (todo ++ post) := by simp
      rw [if_pos (by omega), harray, hsink, hi, hstop]
      simp only [Option.bind_eq_bind, Option.bind_some]
      rw [← List.append_assoc]
      exact hout

/-! ## Merging -/

/-- In a part whose elements go first as long as `q` holds, the search ends where it ceases to. -/
theorem search_spec {goes : Int → Option Bool} {q : α → Bool} {l : List α} {start fuel : Nat}
    (hgoes : ∀ f x b, l = f ++ x :: b → goes (start + f.length : Nat) = some (q x))
    (hq : l.Pairwise fun x y => q y = true → q x = true) (hfuel : l.length < fuel) :
    ∃ l1 l2, l = l1 ++ l2 ∧ search goes fuel start l.length = some ((start + l1.length : Nat) : Int) ∧
      (∀ x ∈ l1, q x = true) ∧ ∀ x ∈ l2, q x = false := by
  induction fuel generalizing l start with
  | zero => omega
  | succ fuel ih =>
    rw [search]
    split
    next hlen =>
      obtain ⟨front, x, back, hl, hfront⟩ : ∃ front x back, l = front ++ x :: back ∧ front.length = l.length / 2 :=
        ⟨l.take (l.length / 2), l[l.length / 2], l.drop (l.length / 2 + 1), by simp, by rw [List.length_take]; omega⟩
      have hmid : (start : Int) + (l.length : Int) / 2 = (start + front.length : Nat) := by omega
      have hlen' : l.length = front.length + (back.length + 1) := by rw [hl, List.length_append, List.length_cons]
      simp only [hmid, hgoes front x back hl, Option.bind_eq_bind, Option.bind_some]
      rw [hl, List.pairwise_append, List.pairwise_cons] at hq
      obtain ⟨hqf, ⟨hqx, hqb⟩, hqfb⟩ := hq
      split
      next hgo =>
        have hmid' : ((start + front.length : Nat) : Int) + 1 = (start + front.length + 1 : Nat) := by omega
        have hrest : (l.length : Int) - (l.length : Int) / 2 - 1 = back.length := by omega
        have hgoes' : ∀ f y b, back = f ++ y :: b → goes (start + front.length + 1 + f.length : Nat) = some (q y) := by
          rintro f y b rfl
          have h := hgoes (front ++ x :: f) y b (by rw [hl, List.append_assoc, List.cons_append])
          rwa [List.length_append, List.length_cons, ← Nat.add_assoc, ← Nat.add_assoc, Nat.add_right_comm _ f.length] at h
        obtain ⟨l1, l2, rfl, hsearch, h1, h2⟩ := ih hgoes' hqb (by omega)
        refine ⟨front ++ x :: l1, l2, by rw [hl, List.append_assoc, List.cons_append], ?_, fun y hy => ?_, h2⟩
        · rw [hmid', hrest, hsearch, List.length_append, List.length_cons]
          congr 2
          omega
        · rcases List.mem_append.1 hy with hy | hy
          · exact hqfb y hy x List.mem_cons_self hgo
          · rcases List.mem_cons.1 hy with rfl | hy
            · exact hgo
            · exact h1 y hy
      next hgo =>
        have hrest : (l.length : Int) / 2 = front.length := by omega
        have hgoes' : ∀ f y b, front = f ++ y :: b → goes (start + f.length : Nat) = some (q y) := by
          rintro f y b rfl
          exact hgoes f y (b ++ x :: back) (by rw [hl, List.append_assoc, List.cons_append])
        obtain ⟨l1, l2, rfl, hsearch, h1, h2⟩ := ih hgoes' hqf (by omega)
        refine ⟨l1, l2 ++ x :: back, by rw [hl, List.append_assoc], by rw [hrest, hsearch], h1, fun y hy => ?_⟩
        rw [Bool.not_eq_true] at hgo
        rcases List.mem_append.1 hy with hy | hy
        · exact h2 y hy
        · rcases List.mem_cons.1 hy with rfl | hy
          · exact hgo
          · exact Bool.eq_false_iff.2 fun h => Bool.eq_false_iff.1 hgo (hqx y hy h)
    next hlen =>
      obtain rfl : l = [] := List.length_eq_zero_iff.1 (by omega)
      exact ⟨[], [], rfl, rfl, by simp, by simp⟩

/-- What `doMerge` does with two sorted parts when it has the fuel for them. -/
def Merges (cmp : α → α → Int) (fuel : Nat) : Prop :=
  ∀ pre l1 l2 post : List α, l1.Pairwise (AtMost cmp) → l2.Pairwise (AtMost cmp) → l1.length + l2.length < fuel →
    ∃ out, doMerge cmp fuel (pre ++ l1 ++ l2 ++ post) pre.length (pre.length + l1.length : Nat)
        (pre.length + l1.length + l2.length : Nat) l1.length l2.length = some (pre ++ out ++ post) ∧
      StableSort (AtMost cmp) (l1 ++ l2) out

/-- The parts `l` and `r` change places, and what is left of the cut and right of it is merged. -/
theorem merge_parts (hcmp : Comparison cmp) {fuel : Nat} (ih : Merges cmp fuel) (pre post : List α) {front l r back : List α}
    (hfront : (front ++ l).Pairwise (AtMost cmp)) (hback : (r ++ back).Pairwise (AtMost cmp))
    (hswap : ∀ x ∈ l, ∀ y ∈ r, ¬ AtMost cmp x y) (hbefore : ∀ x ∈ front, ∀ y ∈ back, AtMost cmp x y)
    (hrotate : l.length + r.length < fuel) (hleft : front.length + r.length < fuel) (hright : l.length + back.length < fuel)
    {first_cut pivot second_cut stop len1 len2 len11 len22 : Int} (hfirst : first_cut = pre.length + front.length)
    (hpivot : pivot = first_cut + l.length) (hsecond : second_cut = pivot + r.length) (hstop : stop = second_cut + back.length)
    (hlen11 : len11 = front.length) (hlen22 : len22 = r.length) (hlen1 : len1 = len11 + l.length) (hlen2 : len2 = len22 + back.length) :
    ∃ out, ((rotate fuel (pre ++ (front ++ l) ++ (r ++ back) ++ post) first_cut pivot second_cut).bind fun a =>
        (doMerge cmp fuel a pre.length first_cut (first_cut + len22) len11 len22).bind fun a =>
          doMerge cmp fuel a (first_cut + len22) second_cut stop (len1 - len11) (len2 - len22)) = some (pre ++ out ++ post) ∧
      StableSort (AtMost cmp) (front ++ l ++ (r ++ back)) out := by
  have hf := List.pairwise_append.1 hfront
  have hb := List.pairwise_append.1 hback
  obtain ⟨left, hmerge, hstable⟩ := ih pre front r (l ++ back ++ post) hf.1 hb.1 hleft
  have hlen : left.length = front.length + r.length := by rw [← hstable.same.perm.length_eq, List.length_append]
  obtain ⟨right, hmerge', hstable'⟩ := ih (pre ++ left) l back post hf.2.1 hb.2.1 hright
  have hrot := rotate_spec (pre ++ front) l r (back ++ post) hrotate
  refine ⟨left ++ right, ?_, .merge hcmp.preorder hfront hback hswap hbefore hstable hstable'⟩
  have hfirst' : first_cut = (pre.length + front.length : Nat) := by omega
  have hpivot' : pivot = (pre.length + front.length + l.length : Nat) := by omega
  have hsecond' : second_cut = (pre.length + front.length + l.length + r.length : Nat) := by omega
  have hnew : first_cut + len22 = (pre.length + front.length + r.length : Nat) := by omega
  have hright1 : len1 - len11 = l.length := by omega
  have hright2 : len2 - len22 = back.length := by omega
  have hstop' : stop = (pre.length + front.length + r.length + l.length + back.length : Nat) := by omega
  have hswapped : pre.length + front.length + l.length + r.length = pre.length + front.length + r.length + l.length := by omega
  simp only [List.length_append, List.append_assoc, hlen, ← Nat.add_assoc] at hrot hmerge hmerge'
  rw [← hswapped] at hmerge' hstop'
  rw [hnew, hright1, hright2, hpivot', hsecond', hfirst', hstop', hlen11, hlen22]
  simp only [List.append_assoc, hrot, Option.bind_some, hmerge, hmerge']

theorem lower_spec (hcmp : Comparison cmp) {pre l post : List α} {v : α} {fuel val : Nat} (hl : l.Pairwise (AtMost cmp))
    (hval : (pre ++ l ++ post)[val]? = some v) (hfuel : l.length < fuel) :
    ∃ l1 l2, l = l1 ++ l2 ∧ lower fuel (pre ++ l ++ post) cmp pre.length (pre.length + l.length : Nat) val =
        some ((pre.length + l1.length : Nat) : Int) ∧ (∀ x ∈ l1, ¬ AtMost cmp v x) ∧ ∀ x ∈ l2, AtMost cmp v x := by
  have hlen : ((pre.length + l.length : Nat) : Int) - pre.length = l.length := by omega
  rw [lower, hlen]
  obtain ⟨l1, l2, hl', hsearch, h1, h2⟩ := @search_spec _ (fun mid => (compare (pre ++ l ++ post) cmp mid val).map fun c => decide (c < 0))
    (fun x => decide (cmp x v < 0)) l pre.length fuel
    (fun f x b hfb => by
      have hx : (pre ++ l ++ post)[pre.length + f.length]? = some x := by
        rw [hfb, ← List.length_append]
        simp
      rw [compare_natCast cmp hx hval, Option.map_some])
    (hl.imp fun {x y} hxy h => by
      rw [decide_eq_true_eq, hcmp.lt_iff] at h ⊢
      exact fun hvx => h (hcmp.trans hvx hxy)) hfuel
  refine ⟨l1, l2, hl', hsearch, fun x hx => ?_, fun x hx => ?_⟩
  · exact hcmp.lt_iff.1 (of_decide_eq_true (h1 x hx))
  · exact hcmp.atMost_of_not_lt (of_decide_eq_false (h2 x hx))

theorem upper_spec (hcmp : Comparison cmp) {pre l post : List α} {v : α} {fuel val : Nat} (hl : l.Pairwise (AtMost cmp))
    (hval : (pre ++ l ++ post)[val]? = some v) (hfuel : l.length < fuel) :
    ∃ l1 l2, l = l1 ++ l2 ∧ upper fuel (pre ++ l ++ post) cmp pre.length (pre.length + l.length : Nat) val =
        some ((pre.length + l1.length : Nat) : Int) ∧ (∀ x ∈ l1, AtMost cmp x v) ∧ ∀ x ∈ l2, ¬ AtMost cmp x v := by
  have hlen : ((pre.length + l.length : Nat) : Int) - pre.length = l.length := by omega
  rw [upper, hlen]
  obtain ⟨l1, l2, hl', hsearch, h1, h2⟩ := @search_spec _ (fun mid => (compare (pre ++ l ++ post) cmp val mid).map fun c => !decide (c < 0))
    (fun x => !decide (cmp v x < 0)) l pre.length fuel
    (fun f x b hfb => by
      have hx : (pre ++ l ++ post)[pre.length + f.length]? = some x := by
        rw [hfb, ← List.length_append]
        simp
      rw [compare_natCast cmp hval hx, Option.map_some])
    (hl.imp fun {x y} hxy h => by
      rw [Bool.not_eq_true', decide_eq_false_iff_not, hcmp.lt_iff, not_not] at h ⊢
      exact hcmp.trans hxy h) hfuel
  refine ⟨l1, l2, hl', hsearch, fun x hx => ?_, fun x hx => ?_⟩
  · have h := h1 x hx
    rw [Bool.not_eq_true', decide_eq_false_iff_not] at h
    exact hcmp.atMost_of_not_lt h
  · have h := h2 x hx
    rw [Bool.not_eq_false', decide_eq_true_eq] at h
    exact hcmp.lt_iff.1 h

theorem merges (hcmp : Comparison cmp) (fuel : Nat) : Merges cmp fuel := by
  induction fuel with
  | zero => intro pre l1 l2 post _ _ h; omega
  | succ fuel ih =>
    intro pre l1 l2 post h1 h2 hfuel
    rw [doMerge]
    split
    next hempty =>
      refine ⟨l1 ++ l2, by simp, .of_sorted ?_⟩
      rcases hempty with h | h
      · obtain rfl : l1 = [] := List.length_eq_zero_iff.1 (by omega)
        exact h2
      · obtain rfl : l2 = [] := List.length_eq_zero_iff.1 (by omega)
        rwa [List.append_nil]
    next hempty =>
      rw [not_or] at hempty
      split
      next htwo =>
        obtain ⟨x, rfl⟩ := List.length_eq_one_iff.1 (show l1.length = 1 by omega)
        obtain ⟨y, rfl⟩ := List.length_eq_one_iff.1 (show l2.length = 1 by omega)
        have harray : pre ++ [x] ++ [y] ++ post = pre ++ x :: y :: post := by simp
        rw [List.length_singleton, harray, compare_neighbours, swap_neighbours']
        simp only [Option.bind_eq_bind, Option.bind_some]
        split
        next hlt =>
          exact ⟨[y, x], by simp, @StableSort.insert _ _ _ hcmp.preorder [] [x] y (by simp) (by simp) (by simpa using hcmp.lt_iff.1 hlt)⟩
        next hlt => exact ⟨[x, y], by simp, .of_sorted (by simpa using hcmp.atMost_of_not_lt hlt)⟩
      next htwo =>
        by_cases hgt : l1.length > l2.length
        · -- the middle of the left part looks for its place in the right one
          obtain ⟨front, v, l, rfl, hhalf⟩ : ∃ front v l, l1 = front ++ v :: l ∧ front.length = l1.length / 2 :=
            ⟨l1.take (l1.length / 2), l1[l1.length / 2], l1.drop (l1.length / 2 + 1), by simp, by rw [List.length_take]; omega⟩
          have hv : (pre ++ (front ++ v :: l) ++ l2 ++ post)[pre.length + front.length]? = some v := by
            rw [← List.length_append]
            simp
          have hvl := List.pairwise_append.1 h1
          obtain ⟨r, back, rfl, hlower, hr, hback⟩ := @lower_spec _ _ hcmp (pre ++ (front ++ v :: l)) l2 post v fuel _ h2 hv (by omega)
          have hlen1 : (front ++ v :: l).length = front.length + (v :: l).length := List.length_append
          have hlen2 : (r ++ back).length = r.length + back.length := List.length_append
          have hpivot : (pre ++ (front ++ v :: l)).length = pre.length + (front ++ v :: l).length := List.length_append
          have hcons : (v :: l).length = l.length + 1 := rfl
          have hfirst : (pre.length : Int) + ((front ++ v :: l).length : Int) / 2 = (pre.length + front.length : Nat) := by omega
          rw [hpivot] at hlower
          rw [if_pos (by omega)]
          simp only [Option.bind_eq_bind, Option.bind_some, hfirst, hlower]
          refine merge_parts hcmp ih pre post h1 h2 (fun x hx y hy hxy => hr y hy ?_)
            (fun x hx y hy => hcmp.trans (hvl.2.2 x hx v List.mem_cons_self) (hback y hy))
            (by omega) (by omega) (by omega) (by omega) (by omega) (by omega) (by omega) (by omega) (by omega) (by omega) (by omega)
          rcases List.mem_cons.1 hx with rfl | hx
          · exact hxy
          · exact hcmp.trans ((List.pairwise_cons.1 hvl.2.1).1 x hx) hxy
        · -- the middle of the right part looks for its place in the left one
          obtain ⟨r, v, back, rfl, hhalf⟩ : ∃ r v back, l2 = r ++ v :: back ∧ r.length = l2.length / 2 :=
            ⟨l2.take (l2.length / 2), l2[l2.length / 2], l2.drop (l2.length / 2 + 1), by simp, by rw [List.length_take]; omega⟩
          have hv : (pre ++ l1 ++ ((r ++ v :: back) ++ post))[pre.length + l1.length + r.length]? = some v := by
            rw [← List.length_append, ← List.length_append]
            simp
          have hvr := List.pairwise_append.1 h2
          obtain ⟨front, l, rfl, hupper, hfront, hl⟩ := @upper_spec _ _ hcmp pre l1 ((r ++ v :: back) ++ post) v fuel _ h1 hv (by omega)
          have hlen1 : (front ++ l).length = front.length + l.length := List.length_append
          have hlen2 : (r ++ v :: back).length = r.length + (v :: back).length := List.length_append
          have hcons : (v :: back).length = back.length + 1 := rfl
          have hsecond : ((pre.length + (front ++ l).length : Nat) : Int) + ((r ++ v :: back).length : Int) / 2 =
              (pre.length + (front ++ l).length + r.length : Nat) := by omega
          rw [← List.append_assoc] at hupper
          rw [if_neg (by omega)]
          simp only [Option.bind_eq_bind, Option.bind_some, hsecond, hupper]
          refine merge_parts hcmp ih pre post h1 h2 (fun x hx y hy hxy => hl x hx (hcmp.trans hxy (hvr.2.2 y hy v List.mem_cons_self)))
            (fun x hx y hy => hcmp.trans (hfront x hx) ?_)
            (by omega) (by omega) (by omega) (by omega) (by omega) (by omega) (by omega) (by omega) (by omega) (by omega) (by omega)
          rcases List.mem_cons.1 hy with rfl | hy
          · exact hcmp.preorder.refl _
          · exact (List.pairwise_cons.1 hvr.2.1).1 y hy

/-! ## Segments and the range of `Int` -/

/-- `m` is `n` halved again and again, and rounded up. -/
def Halved (n m : Nat) : Prop := ∃ k, (m - 1) * 2 ^ k < n ∧ n ≤ m * 2 ^ k

theorem Halved.refl {n : Nat} (hn : 0 < n) : Halved n n := ⟨0, by omega, by omega⟩

theorem Halved.half {n m : Nat} (h : Halved n m) : Halved n (m - m / 2) := by
  obtain ⟨k, hlt, hle⟩ := h
  refine ⟨k + 1, ?_, ?_⟩
  · have hmul := Nat.mul_le_mul_right (2 ^ k) (show (m - m / 2 - 1) * 2 ≤ m - 1 by omega)
    rw [Nat.pow_succ, Nat.mul_comm (2 ^ k), ← Nat.mul_assoc]
    omega
  · have hmul := Nat.mul_le_mul_right (2 ^ k) (show m ≤ (m - m / 2) * 2 by omega)
    rw [Nat.pow_succ, Nat.mul_comm (2 ^ k), ← Nat.mul_assoc]
    omega

/-- Where the array is small enough, the last segment that is halved is long enough for the sum of its bounds. -/
theorem Halved.long {n m : Nat} (h : Halved n m) (hn : 1073741824 < n) (hle : n ≤ 1073741832) (hm : 12 ≤ m) : 17 ≤ m := by
  obtain ⟨k, hlt, hmul⟩ := h
  have hk : k ≤ 26 := by
    by_contra hk
    have hpow := Nat.pow_le_pow_right (show 0 < 2 by decide) (show 27 ≤ k by omega)
    have hprod := Nat.mul_le_mul (show 11 ≤ m - 1 by omega) hpow
    omega
  have hpow := Nat.pow_le_pow_right (show 0 < 2 by decide) hk
  have hprod := Nat.mul_le_mul_left m hpow
  omega

/-- And where it is not, the last segment is too short. -/
theorem Halved.short {n m : Nat} (h : Halved n m) (hn : 1073741832 < n) (hm : 12 ≤ m) (hle : m ≤ 22) : 2147483648 + m ≤ 2 * n := by
  obtain ⟨k, hlt, hmul⟩ := h
  rcases Nat.lt_trichotomy k 26 with hk | rfl | hk
  · have hpow := Nat.pow_le_pow_right (show 0 < 2 by decide) (show k ≤ 25 by omega)
    have hprod := Nat.mul_le_mul hle hpow
    omega
  · omega
  · have hpow := Nat.pow_le_pow_right (show 0 < 2 by decide) (show 27 ≤ k by omega)
    have hprod := Nat.mul_le_mul (show 11 ≤ m - 1 by omega) hpow
    omega

/-- The bounds of a segment of `m` elements, and those of its parts, have sums within `Int`. -/
def Fits (n start m : Nat) : Prop :=
  start + m < 1073741830 ∨ (start + m = n ∧ 1073741824 < n ∧ n ≤ 1073741832 ∧ Halved n m)

theorem Fits.sum_lt {n start m : Nat} (h : Fits n start m) (hm : 12 ≤ m) : start + (start + m) < 2147483648 := by
  rcases h with h | ⟨rfl, hn, hle, hhalved⟩
  · omega
  · have hlong := hhalved.long hn hle hm
    omega

theorem Fits.lt {n start m : Nat} (h : Fits n start m) : start + m < 2147483648 := by
  rcases h with h | ⟨rfl, -, hle, -⟩ <;> omega

theorem Fits.left {n start m : Nat} (h : Fits n start m) (hm : 12 ≤ m) : Fits n start (m / 2) := by
  rcases h with h | ⟨rfl, -, hle, -⟩
  · exact .inl (by omega)
  · exact .inl (by omega)

theorem Fits.right {n start m : Nat} (h : Fits n start m) : Fits n (start + m / 2) (m - m / 2) := by
  rcases h with h | ⟨rfl, hn, hle, hhalved⟩
  · exact .inl (by omega)
  · exact .inr ⟨by omega, hn, hle, hhalved.half⟩

theorem wrap_eq {x : Int} (hlo : -2147483648 ≤ x) (hhi : x < 2147483648) : wrap x = x := by
  rw [wrap]; omega

/-! ## The recursion -/

theorem rec_spec (hcmp : Comparison cmp) {n : Nat} {pre l post : List α} {fuel : Nat} (hfit : Fits n pre.length l.length)
    (hfuel : 2 * l.length < fuel) :
    ∃ out, rec cmp fuel (pre ++ l ++ post) pre.length (pre.length + l.length : Nat) = some (pre ++ out ++ post) ∧
      StableSort (AtMost cmp) l out := by
  induction fuel generalizing pre l post with
  | zero => omega
  | succ fuel ih =>
    have hlt := hfit.lt
    rw [rec, wrap_eq (x := (pre.length + l.length : Nat) - (pre.length : Int)) (by omega) (by omega)]
    split
    next hshort =>
      cases l with
      | nil =>
        rw [if_pos (by simp)]
        exact ⟨[], rfl, .of_sorted .nil⟩
      | cons x todo =>
        rw [List.length_cons] at hfuel hshort ⊢
        obtain ⟨out, hout, hstable⟩ := @insertion_spec _ _ hcmp pre [x] [x] todo post fuel (.of_sorted (List.pairwise_singleton _ _))
          (by rw [List.length_singleton]; omega)
        refine ⟨out, ?_, hstable⟩
        rw [if_neg (by omega)]
        simpa [Nat.add_assoc, Nat.add_comm, Nat.add_left_comm, add_comm, add_left_comm] using hout
    next hlong =>
      obtain ⟨l1, l2, rfl, hhalf⟩ : ∃ l1 l2, l = l1 ++ l2 ∧ l1.length = l.length / 2 :=
        ⟨l.take (l.length / 2), l.drop (l.length / 2), by simp, by rw [List.length_take]; omega⟩
      have hlen : (l1 ++ l2).length = l1.length + l2.length := List.length_append
      have hsum := hfit.sum_lt (by omega)
      have hleft := hfit.left (by omega)
      have hright := hfit.right
      rw [← hhalf] at hleft hright
      obtain ⟨left, hrec1, hstable1⟩ := @ih pre l1 (l2 ++ post) hleft (by omega)
      have hlen1 : left.length = l1.length := hstable1.same.perm.length_eq.symm
      have hpre : (pre ++ left).length = pre.length + l1.length := by rw [List.length_append, hlen1]
      obtain ⟨right, hrec2, hstable2⟩ := @ih (pre ++ left) l2 post
        (by rw [hpre, show l2.length = (l1 ++ l2).length - l1.length by omega]; exact hright) (by omega)
      have hlen2 : right.length = l2.length := hstable2.same.perm.length_eq.symm
      obtain ⟨out, hmerge, hstable⟩ := merges hcmp fuel pre left right post hstable1.sorted hstable2.sorted (by omega)
      refine ⟨out, ?_, .of_same (hstable1.same.append hstable2.same) hstable⟩
      have hmiddle : wrap ((pre.length : Int) + (pre.length + (l1 ++ l2).length : Nat)) / 2 = (pre.length + l1.length : Nat) := by
        rw [wrap_eq (by omega) (by omega)]
        omega
      have hstop : pre.length + (l1 ++ l2).length = pre.length + l1.length + l2.length := by omega
      have hspan1 : ((pre.length + l1.length : Nat) : Int) - pre.length = left.length := by omega
      have hspan2 : ((pre.length + l1.length + l2.length : Nat) : Int) - (pre.length + l1.length : Nat) = right.length := by omega
      rw [hpre, List.append_assoc pre] at hrec2
      rw [hlen1, hlen2] at hmerge
      simp only [List.append_assoc] at hrec1 hrec2 hmerge
      rw [hmiddle, hstop, hspan1, hspan2, hlen1, hlen2]
      simp only [List.append_assoc, hrec1, hrec2, Option.bind_eq_bind, Option.bind_some, hmerge]

/-- Below zero there is nothing to compare. -/
theorem insertion_eq_none {fuel : Nat} {start stop : Int} (a : List α) (hstart : start < 0) (hlt : start + 1 < stop) :
    insertion cmp start stop fuel a (start + 1) = none := by
  cases fuel with
  | zero => rfl
  | succ fuel =>
    rw [insertion, if_pos hlt]
    cases fuel with
    | zero => rfl
    | succ fuel =>
      rw [sink, if_pos (by omega), Int.add_sub_cancel, compare_eq_none a cmp _ hstart]
      rfl

/-- A sum that leaves the range puts the middle below zero, and from there on the elements are compared. -/
theorem rec_eq_none_of_overflow {fuel start m : Nat} (a : List α) (hm : 12 ≤ m) (hlt : start + m < 2147483648)
    (hsum : 2147483648 ≤ start + (start + m)) : rec cmp fuel a start (start + m : Nat) = none := by
  cases fuel with
  | zero => rfl
  | succ fuel =>
    have heq : wrap ((start : Int) + (start + m : Nat)) = (start : Int) + (start + m : Nat) - 4294967296 := by
      rw [wrap]; omega
    rw [rec, wrap_eq (x := (start + m : Nat) - (start : Int)) (by omega) (by omega), if_neg (by omega), heq]
    obtain ⟨middle, hmiddle⟩ : ∃ middle, ((start : Int) + (start + m : Nat) - 4294967296) / 2 = middle := ⟨_, rfl⟩
    simp only [hmiddle, Option.bind_eq_bind]
    cases fuel with
    | zero => rfl
    | succ fuel =>
      -- nothing lies left of the middle
      have hleft : rec cmp (fuel + 1) a start middle = some a := by
        rw [rec, wrap_eq (by omega) (by omega), if_pos (by omega), if_pos (by omega)]
      have hright : rec cmp (fuel + 1) a middle (start + m : Nat) = none := by
        have hwrap : wrap ((start + m : Nat) - middle) = (start + m : Nat) - middle - 4294967296 := by
          rw [wrap]; omega
        rw [rec, hwrap, if_pos (by omega), if_neg (by omega)]
        exact insertion_eq_none a (by omega) (by omega)
      rw [hleft, Option.bind_some, hright, Option.bind_none]

theorem rec_eq_none {n : Nat} (hn : 1073741832 < n) (hlt : n < 2147483648) {fuel start m : Nat} (a : List α) (hm : 12 ≤ m)
    (hstart : start + m = n) (hhalved : Halved n m) : rec cmp fuel a start n = none := by
  induction fuel generalizing a start m with
  | zero => rfl
  | succ fuel ih =>
    by_cases hsum : 2147483648 ≤ start + (start + m)
    · rw [← hstart]
      exact rec_eq_none_of_overflow a hm (by omega) hsum
    · have hhalf : 12 ≤ m - m / 2 := by
        by_contra hhalf
        have hshort := hhalved.short hn hm (by omega)
        omega
      have hmiddle : wrap ((start : Int) + (n : Int)) / 2 = (start + m / 2 : Nat) := by
        rw [wrap_eq (by omega) (by omega)]
        omega
      have hright : ∀ a, rec cmp fuel a (start + m / 2 : Nat) n = none := fun a =>
        ih a hhalf (by omega) hhalved.half
      rw [rec, wrap_eq (x := (n : Int) - start) (by omega) (by omega), if_neg (by omega), hmiddle]
      cases h : rec cmp fuel a start (start + m / 2 : Nat) with
      | none => simp only [Option.bind_eq_bind, Option.bind_none]
      | some a' => simp only [hright, Option.bind_eq_bind, Option.bind_some, Option.bind_none]

/-! ## The sort -/

/-- With the fuel for it the sort ends, and it is a stable one. -/
def Sorts (cmp : α → α → Int) (a : List α) : Prop :=
  ∃ bound, ∀ fuel ≥ bound, ∃ r, sort fuel a cmp = some r ∧ StableSort (AtMost cmp) a r

theorem sorts_of_le (hcmp : Comparison cmp) {a : List α} (ha : a.length ≤ 1073741832) : Sorts cmp a := by
  refine ⟨2 * a.length + 1, fun fuel hfuel => ?_⟩
  have hfit : Fits a.length ([] : List α).length a.length := by
    by_cases hlt : a.length < 1073741830
    · exact .inl (by rwa [List.length_nil, Nat.zero_add])
    · exact .inr ⟨by rw [List.length_nil, Nat.zero_add], by omega, ha, .refl (by omega)⟩
  obtain ⟨r, hr, hstable⟩ := @rec_spec _ _ hcmp _ [] a [] fuel hfit (by omega)
  exact ⟨r, by simpa [sort] using hr, hstable⟩

theorem not_sorts {a : List α} (ha : 1073741832 < a.length) (hlen : a.length < 2147483648) : ¬ Sorts cmp a := by
  rintro ⟨bound, h⟩
  obtain ⟨r, hr, -⟩ := h bound (Nat.le_refl _)
  have hnone : sort bound a cmp = none :=
    @rec_eq_none _ cmp _ ha hlen bound 0 _ a (by omega) (Nat.zero_add _) (.refl (by omega))
  rw [hnone] at hr
  cases hr

/-- `ArraySort` is a stable sort of the arrays up to a length just above 2^30. -/
theorem sort_iff (hcmp : Comparison cmp) {a : List α} (hlen : a.length < 2147483648) :
    Sorts cmp a ↔ a.length ≤ 1073741832 :=
  ⟨fun h => not_lt.1 fun hlt => not_sorts hlt hlen h, sorts_of_le hcmp⟩

theorem comparison_sub : Comparison fun x y : Int => x - y where
  swap x y := by omega
  trans := by intro x y z; omega

theorem sort_iff_three : Comparison (fun x y : Int => x - y) ∧ ([3, 1, 2] : List Int).length < 2147483648 ∧
    (Sorts (fun x y : Int => x - y) [3, 1, 2] ↔ ([3, 1, 2] : List Int).length ≤ 1073741832) :=
  ⟨comparison_sub, by decide, sort_iff comparison_sub (by decide)⟩

/-- Of 2^30 + 9 elements the last segments are halved at a sum of 2^31 and more. -/
theorem sort_overflows : Comparison (fun x y : Int => x - y) ∧
    (List.replicate 1073741833 (0 : Int)).length < 2147483648 ∧ ¬ Sorts (fun x y : Int => x - y) (List.replicate 1073741833 0) := by
  have hlen : (List.replicate 1073741833 (0 : Int)).length = 1073741833 := List.length_replicate
  exact ⟨comparison_sub, by omega, not_sorts (by omega) (by omega)⟩

end EvilHaxe.Ds.ArraySort
