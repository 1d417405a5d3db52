/-
`haxe.ds.ArraySort`. An array is the list of its elements, an index is an `Int` of the target, and whoever reads or
writes outside of the array gets no further. `from` and `to` are `start` and `stop`;
loops and recursion run on fuel.
-/
import EvilHaxe.Lib.StableSort
import EvilHaxe.Lib.Cycles

namespace EvilHaxe.Ds.ArraySort

/-- `Int` has 32 bits: sums and differences of indices wrap around. -/
def wrap (x : Int) : Int := (x + 2147483648) % 4294967296 - 2147483648

variable {α : Type}

def get (a : List α) (i : Int) : Option α := if 0 ≤ i then a[i.toNat]? else none

def put (a : List α) (i : Int) (x : α) : Option (List α) :=
  if 0 ≤ i ∧ i.toNat < a.length then some (a.set i.toNat x) else none

@[simp] theorem get_natCast (a : List α) (i : Nat) : get a i = a[i]? := by simp [get]

theorem put_natCast {a : List α} {i : Nat} (h : i < a.length) (x : α) : put a i x = some (a.set i x) := by simp [put, h]

theorem get_eq_none {a : List α} {i : Int} (h : i < 0) : get a i = none := if_neg (by omega)

def compare (a : List α) (cmp : α → α → Int) (i j : Int) : Option Int := do
  let x ← get a i
  let y ← get a j
  some (cmp x y)

def swap (a : List α) (i j : Int) : Option (List α) := do
  let tmp ← get a i
  let x ← get a j
  let a ← put a i x
  put a j tmp

theorem compare_natCast {a : List α} (cmp : α → α → Int) {i j : Nat} {x y : α} (hx : a[i]? = some x) (hy : a[j]? = some y) :
    compare a cmp i j = some (cmp x y) := by
  simp only [compare, get_natCast, hx, hy, Option.bind_eq_bind, Option.bind_some]

theorem compare_eq_none (a : List α) (cmp : α → α → Int) (i : Int) {j : Int} (hj : j < 0) : compare a cmp i j = none := by
  cases h : get a i with
  | none => simp only [compare, h, Option.bind_eq_bind, Option.bind_none]
  | some x => simp only [compare, h, get_eq_none hj, Option.bind_eq_bind, Option.bind_some, Option.bind_none]

theorem swap_natCast {a : List α} {i j : Nat} {x y : α} (hx : a[i]? = some x) (hy : a[j]? = some y) :
    swap a i j = some ((a.set i y).set j x) := by
  have hi := (List.getElem?_eq_some_iff.1 hx).1
  have hj := (List.getElem?_eq_some_iff.1 hy).1
  simp only [swap, get_natCast, hx, hy, Option.bind_eq_bind, Option.bind_some, put_natCast hi]
  exact put_natCast (by rwa [List.length_set]) x

section

variable (xs ys : List α) (x y : α)

theorem getElem?_behind : (xs ++ x :: ys)[xs.length]? = some x := by simp

theorem getElem?_behind_succ : (xs ++ x :: y :: ys)[xs.length + 1]? = some y := by simp

theorem compare_neighbours (cmp : α → α → Int) :
    compare (xs ++ x :: y :: ys) cmp (xs.length + 1 : Nat) xs.length = some (cmp y x) :=
  compare_natCast cmp (getElem?_behind_succ xs ys x y) (getElem?_behind xs (y :: ys) x)

theorem swap_neighbours : swap (xs ++ x :: y :: ys) xs.length (xs.length + 1 : Nat) = some (xs ++ y :: x :: ys) := by
  rw [swap_natCast (getElem?_behind xs (y :: ys) x) (getElem?_behind_succ xs ys x y)]
  simp

theorem swap_neighbours' : swap (xs ++ x :: y :: ys) (xs.length + 1 : Nat) xs.length = some (xs ++ y :: x :: ys) := by
  rw [swap_natCast (getElem?_behind_succ xs ys x y) (getElem?_behind xs (y :: ys) x)]
  simp

end

/-- The loop of `upper` and of `lower`: `goes` says whether the place that is looked for lies behind `mid`. -/
def search (goes : Int → Option Bool) : Nat → Int → Int → Option Int
  | 0, _, _ => none
  | fuel + 1, start, len =>
    if 0 < len then do
      let half := len / 2
      let mid := start + half
      if ← goes mid then search goes fuel (mid + 1) (len - half - 1) else search goes fuel start half
    else some start

def upper (fuel : Nat) (a : List α) (cmp : α → α → Int) (start stop val : Int) : Option Int :=
  search (fun mid => (compare a cmp val mid).map fun c => !decide (c < 0)) fuel start (stop - start)

def lower (fuel : Nat) (a : List α) (cmp : α → α → Int) (start stop val : Int) : Option Int :=
  search (fun mid => (compare a cmp mid val).map fun c => decide (c < 0)) fuel start (stop - start)

/-- No index is below zero where `gcd` is called. -/
def gcd : Nat → Nat → Nat → Option Nat
  | 0, _, _ => none
  | fuel + 1, m, n => if n ≠ 0 then gcd fuel n (m % n) else some m

/-- The inner loop of `rotate`: the elements of one cycle move on until `p2` is back at `first`. -/
def cycle (start shift stop first : Int) : Nat → List α → Int → Int → Option (List α × Int)
  | 0, _, _, _ => none
  | fuel + 1, a, p1, p2 =>
    if p2 ≠ first then do
      let a ← put a p1 (← get a p2)
      cycle start shift stop first fuel a p2 (if stop - p2 > shift then p2 + shift else start + (shift - (stop - p2)))
    else some (a, p1)

/-- The outer loop of `rotate`, which counts `n` down. -/
def cycles (fuel : Nat) (start mid stop : Int) : Nat → List α → Option (List α)
  | 0, a => some a
  | n + 1, a => do
    let val ← get a (start + n)
    let shift := mid - start
    let (a, p1) ← cycle start shift stop (start + n) fuel a (start + n) (start + n + shift)
    cycles fuel start mid stop n (← put a p1 val)

def rotate (fuel : Nat) (a : List α) (start mid stop : Int) : Option (List α) :=
  if start = mid ∨ mid = stop then some a
  else do
    let n ← gcd fuel (stop - start).toNat (mid - start).toNat
    cycles fuel start mid stop n a

def doMerge (cmp : α → α → Int) : Nat → List α → Int → Int → Int → Int → Int → Option (List α)
  | 0, _, _, _, _, _, _ => none
  | fuel + 1, a, start, pivot, stop, len1, len2 => do
    if len1 = 0 ∨ len2 = 0 then some a
    else if len1 + len2 = 2 then
      if (← compare a cmp pivot start) < 0 then swap a pivot start else some a
    else
      let (len11, first_cut, second_cut, len22) ←
        if len1 > len2 then do
          let first_cut := start + len1 / 2
          let second_cut ← lower fuel a cmp pivot stop first_cut
          some (len1 / 2, first_cut, second_cut, second_cut - pivot)
        else do
          let second_cut := pivot + len2 / 2
          let first_cut ← upper fuel a cmp start pivot second_cut
          some (first_cut - start, first_cut, second_cut, len2 / 2)
      let a ← rotate fuel a first_cut pivot second_cut
      let new_mid := first_cut + len22
      let a ← doMerge cmp fuel a start first_cut new_mid len11 len22
      doMerge cmp fuel a new_mid second_cut stop (len1 - len11) (len2 - len22)

/-- The inner loop of the insertion sort in `rec`. -/
def sink (cmp : α → α → Int) (start : Int) : Nat → List α → Int → Option (List α)
  | 0, _, _ => none
  | fuel + 1, a, j => do
    if j > start then
      if (← compare a cmp j (j - 1)) < 0 then sink cmp start fuel (← swap a (j - 1) j) (j - 1) else some a
    else some a

/-- The outer loop: `for (i in (from + 1)...to)`. -/
def insertion (cmp : α → α → Int) (start stop : Int) : Nat → List α → Int → Option (List α)
  | 0, _, _ => none
  | fuel + 1, a, i => do
    if i < stop then insertion cmp start stop fuel (← sink cmp start fuel a i) (i + 1) else some a

def rec (cmp : α → α → Int) : Nat → List α → Int → Int → Option (List α)
  | 0, _, _, _ => none
  | fuel + 1, a, start, stop => do
    let middle := wrap (start + stop) / 2
    if wrap (stop - start) < 12 then
      if stop ≤ start then some a else insertion cmp start stop fuel a (start + 1)
    else
      let a ← rec cmp fuel a start middle
      let a ← rec cmp fuel a middle stop
      doMerge cmp fuel a start middle stop (middle - start) (stop - middle)

def sort (fuel : Nat) (a : List α) (cmp : α → α → Int) : Option (List α) := rec cmp fuel a 0 a.length

end EvilHaxe.Ds.ArraySort

/-! `rotate` of `ArraySort` exchanges two neighbouring parts of the array, whatever their lengths. -/

namespace EvilHaxe.Ds.ArraySort

open Lib

variable {α : Type}

theorem gcd_spec {fuel m n : Nat} (hfuel : n < fuel) : gcd fuel m n = some (m.gcd n) := by
  induction fuel generalizing m n with
  | zero => omega
  | succ fuel ih =>
    rw [gcd]
    split
    next hn =>
      have hlt : m % n < n := Nat.mod_lt _ (Nat.pos_of_ne_zero hn)
      rw [ih (by omega), Nat.gcd_comm n, ← Nat.gcd_rec, Nat.gcd_comm]
    next hn =>
      obtain rfl : n = 0 := by omega
      rw [Nat.gcd_zero_right]

/-- The places from `start` on that are `done` hold what lay `k` places on, of `n`; all others hold what they held. -/
structure Turned (a b : List α) (start n k : Nat) (done : Nat → Prop) : Prop where
  length : b.length = a.length
  outside : ∀ i, i < start ∨ start + n ≤ i → b[i]? = a[i]?
  moved : ∀ i < n, done i → b[start + i]? = a[start + (i + k) % n]?
  kept : ∀ i < n, ¬ done i → b[start + i]? = a[start + i]?

section

variable {a b : List α} {start n k : Nat} {done done' : Nat → Prop}

theorem Turned.refl : Turned a a start n k fun _ => False where
  length := rfl
  outside _ _ := rfl
  moved _ _ h := h.elim
  kept _ _ _ := rfl

theorem Turned.congr (h : Turned a b start n k done) (hdone : ∀ i < n, (done' i ↔ done i)) : Turned a b start n k done' where
  length := h.length
  outside := h.outside
  moved i hi hd := h.moved i hi ((hdone i hi).1 hd)
  kept i hi hd := h.kept i hi fun hd' => hd ((hdone i hi).2 hd')

/-- One more place is done. -/
theorem Turned.put (h : Turned a b start n k done) (hfit : start + n ≤ a.length) {i : Nat} (hi : i < n) {x : α}
    (hx : a[start + (i + k) % n]? = some x) (hdone : ∀ j < n, (done' j ↔ done j ∨ j = i)) :
    put b (start + i : Nat) x = some (b.set (start + i) x) ∧ Turned a (b.set (start + i) x) start n k done' := by
  have hlen := h.length
  have hother : ∀ j, j ≠ start + i → (b.set (start + i) x)[j]? = b[j]? := fun j hj => List.getElem?_set_ne (Ne.symm hj)
  refine ⟨put_natCast (by omega) x, by rw [List.length_set, hlen], fun j hj => ?_, fun j hj hd => ?_, fun j hj hd => ?_⟩
  · rw [hother j (by omega), h.outside j hj]
  · by_cases hji : j = i
    · subst hji
      rw [hx, List.getElem?_set_self (by omega)]
    · rw [hother _ (by omega), h.moved j hj (((hdone j hj).1 hd).resolve_right hji)]
  · rw [hdone j hj, not_or] at hd
    rw [hother _ (by omega), h.kept j hj hd.1]

end

section

variable {a b : List α} {start n k s : Nat}

/-- The step of `p2` leads to the next place of the cycle. -/
theorem next_place {j : Nat} (hk : k < n) :
    (if ((start + n : Nat) : Int) - (start + place n k s j : Nat) > k then ((start + place n k s j : Nat) : Int) + k
      else start + (k - (((start + n : Nat) : Int) - (start + place n k s j : Nat)))) = (start + place n k s (j + 1) : Nat) := by
  have hlt : place n k s j < n := place_lt (by omega) j
  rw [place_succ]
  generalize place n k s j = x at hlt
  split
  next h => rw [Nat.mod_eq_of_lt (by omega)]; omega
  next h => rw [Nat.mod_eq_sub_mod (by omega), Nat.mod_eq_of_lt (by omega)]; omega

/-- What one cycle has done when `j` of its places are behind it. -/
def Passed (done : Nat → Prop) (n k s j : Nat) (i : Nat) : Prop := done i ∨ ∃ j' < j, place n k s j' = i

theorem passed_succ {done : Nat → Prop} {j i : Nat} : Passed done n k s (j + 1) i ↔ Passed done n k s j i ∨ i = place n k s j := by
  constructor
  · rintro (h | ⟨j', hj', rfl⟩)
    · exact .inl (.inl h)
    · rcases Nat.lt_succ_iff_lt_or_eq.1 hj' with hlt | rfl
      · exact .inl (.inr ⟨j', hlt, rfl⟩)
      · exact .inr rfl
  · rintro ((h | ⟨j', hj', rfl⟩) | rfl)
    · exact .inl h
    · exact .inr ⟨j', by omega, rfl⟩
    · exact .inr ⟨j, by omega, rfl⟩

theorem not_passed {done : Nat → Prop} (hn : 0 < n) (hdone : ∀ i, done i → i % n.gcd k ≠ s % n.gcd k) {j j' : Nat} (hle : j ≤ j')
    (hj' : j' < n / n.gcd k) : ¬ Passed done n k s j (place n k s j') := by
  rintro (h | ⟨i, hi, heq⟩)
  · exact hdone _ h (place_mod_gcd j')
  · exact place_ne hn (show i < j' by omega) (by omega) heq

/-- The inner loop goes once round the cycle of `s`, and stops before its last place. -/
theorem cycle_spec {done : Nat → Prop} (hk : k < n) (hs : s < n) (hfit : start + n ≤ a.length)
    (hdone : ∀ i, done i → i % n.gcd k ≠ s % n.gcd k) {fuel j : Nat} (hj : j < n / n.gcd k) (hfuel : n / n.gcd k ≤ fuel + j)
    (hb : Turned a b start n k (Passed done n k s j)) :
    ∃ b', cycle start k (start + n : Nat) (start + s : Nat) fuel b (start + place n k s j : Nat) (start + place n k s (j + 1) : Nat) =
        some (b', ((start + place n k s (n / n.gcd k - 1) : Nat) : Int)) ∧
      Turned a b' start n k (Passed done n k s (n / n.gcd k - 1)) := by
  have hn : 0 < n := by omega
  induction fuel generalizing j b with
  | zero => omega
  | succ fuel ih =>
    rw [cycle]
    split
    next hp =>
      have hnext : j + 1 < n / n.gcd k := by
        have hne : j + 1 ≠ n / n.gcd k := by
          intro heq
          rw [heq, place_period hs] at hp
          exact hp rfl
        omega
      have hlt := place_lt (s := s) (k := k) hn (j + 1)
      -- the place that is read is still as it was
      have hread : b[start + place n k s (j + 1)]? = a[start + place n k s (j + 1)]? :=
        hb.kept _ hlt (not_passed hn hdone (by omega) hnext)
      obtain ⟨x, hx⟩ : ∃ x, a[start + place n k s (j + 1)]? = some x := ⟨_, List.getElem?_eq_getElem (by omega)⟩
      obtain ⟨hput, hb'⟩ := hb.put hfit (place_lt hn j) (by rwa [← place_succ]) fun i _ => passed_succ
      rw [get_natCast, hread, hx]
      simp only [Option.bind_eq_bind, Option.bind_some, hput, next_place hk]
      exact ih hnext (by omega) hb'
    next hp =>
      have hback : place n k s 0 = place n k s (j + 1) := by rw [place_zero hs]; omega
      have hround : j + 1 = n / n.gcd k := by
        have hdvd := dvd_of_place_eq hn (Nat.zero_le _) hback
        have hle := Nat.le_of_dvd (by omega) hdvd
        omega
      obtain rfl : j = n / n.gcd k - 1 := by omega
      exact ⟨b, rfl, hb⟩

theorem cycles_spec (hk : 0 < k) (hkn : k < n) (hfit : start + n ≤ a.length) {fuel m : Nat} (hfuel : n ≤ fuel) (hm : m ≤ n.gcd k)
    (hb : Turned a b start n k fun i => m ≤ i % n.gcd k) :
    ∃ b', cycles fuel start (start + k : Nat) (start + n : Nat) m b = some b' ∧ Turned a b' start n k fun _ => True := by
  have hn : 0 < n := by omega
  have hg : 0 < n.gcd k := Nat.gcd_pos_of_pos_right n hk
  induction m generalizing b with
  | zero => exact ⟨b, rfl, hb.congr fun i _ => by simp⟩
  | succ m ih =>
    have hgk : n.gcd k ≤ n - k :=
      Nat.le_of_dvd (by omega) (Nat.dvd_sub (Nat.gcd_dvd_left n k) (Nat.gcd_dvd_right n k))
    have hmod : m % n.gcd k = m := Nat.mod_eq_of_lt (by omega)
    have hround : 0 < n / n.gcd k := Nat.div_pos (Nat.gcd_le_left k hn) hg
    obtain ⟨val, hval⟩ : ∃ val, a[start + m]? = some val := ⟨_, List.getElem?_eq_getElem (by omega)⟩
    have hread : b[start + m]? = some val := by rw [hb.kept m (by omega) (by omega), hval]
    have hfirst : place n k m 0 = m := place_zero (by omega)
    have hsecond : place n k m 1 = m + k := by rw [place, Nat.one_mul, Nat.mod_eq_of_lt (by omega)]
    have hstart : Turned a b start n k (Passed (fun i => m + 1 ≤ i % n.gcd k) n k m 0) :=
      hb.congr fun i _ => by simp [Passed]
    obtain ⟨b1, hcycle, hb1⟩ := cycle_spec (s := m) hkn (by omega) hfit (fun i hi => by omega) hround
      (show n / n.gcd k ≤ fuel + 0 from (Nat.div_le_self n (n.gcd k)).trans hfuel) hstart
    -- the element that was laid aside goes to the last place
    have hlast : (place n k m (n / n.gcd k - 1) + k) % n = m := by
      rw [← place_succ, Nat.sub_add_cancel hround, place_period (by omega)]
    have hdone : ∀ i < n, (m ≤ i % n.gcd k ↔
        Passed (fun i => m + 1 ≤ i % n.gcd k) n k m (n / n.gcd k - 1) i ∨ i = place n k m (n / n.gcd k - 1)) := by
      intro i hi
      rw [← passed_succ, Nat.sub_add_cancel hround]
      constructor
      · intro hle
        by_cases heq : i % n.gcd k = m
        · exact .inr (exists_place hk hkn hi heq)
        · exact .inl (by omega)
      · rintro (hle | ⟨j, -, rfl⟩)
        · omega
        · rw [place_mod_gcd]; omega
    obtain ⟨hput, hb2⟩ := hb1.put hfit (place_lt hn _) (by rw [hlast, hval]) hdone
    obtain ⟨b', hrest, hb'⟩ := ih (by omega) hb2
    refine ⟨b', ?_, hb'⟩
    rw [hfirst, Nat.zero_add, hsecond] at hcycle
    have hshift : ((start + k : Nat) : Int) - start = k := by omega
    have hp1 : (start : Int) + m = (start + m : Nat) := by omega
    have hp2 : ((start + m : Nat) : Int) + k = (start + (m + k) : Nat) := by omega
    simp only [cycles, hshift, hp1, hp2, get_natCast, hread, hcycle, hput, Option.bind_eq_bind, Option.bind_some, hrest]

end

/-- The parts change places, and all else stays. -/
theorem rotate_spec {fuel : Nat} (front l1 l2 back : List α) (hfuel : l1.length + l2.length < fuel) :
    rotate fuel (front ++ l1 ++ l2 ++ back) front.length (front.length + l1.length : Nat) (front.length + l1.length + l2.length : Nat) =
      some (front ++ l2 ++ l1 ++ back) := by
  rw [rotate]
  split
  next h =>
    rcases h with h | h
    · obtain rfl : l1 = [] := List.length_eq_zero_iff.1 (by omega)
      rw [List.append_nil, List.append_nil]
    · obtain rfl : l2 = [] := List.length_eq_zero_iff.1 (by omega)
      rw [List.append_nil, List.append_nil]
  next h =>
    rw [not_or] at h
    have hl1 : 0 < l1.length := by omega
    have hl2 : 0 < l2.length := by omega
    generalize hn : l1.length + l2.length = n at hfuel
    have hstop : front.length + l1.length + l2.length = front.length + n := by omega
    have hspan : (((front.length + n : Nat) : Int) - front.length).toNat = n := by omega
    have hshift : (((front.length + l1.length : Nat) : Int) - front.length).toNat = l1.length := by omega
    have hfit : front.length + n ≤ (front ++ l1 ++ l2 ++ back).length := by
      simp only [List.length_append]; omega
    have hnothing : ∀ i < n, (n.gcd l1.length ≤ i % n.gcd l1.length ↔ False) := fun i _ =>
      iff_false_intro (Nat.not_le.2 (Nat.mod_lt _ (Nat.gcd_pos_of_pos_right n hl1)))
    obtain ⟨b, hb, hturned⟩ := cycles_spec hl1 (by omega) hfit (show n ≤ fuel by omega) (Nat.le_refl _)
      (Turned.refl.congr hnothing)
    rw [hstop, hspan, hshift, gcd_spec (by omega)]
    simp only [Option.bind_eq_bind, Option.bind_some, hb, Option.some.injEq]
    refine List.ext_getElem? fun i => ?_
    by_cases hi : front.length ≤ i ∧ i < front.length + n
    · obtain ⟨x, rfl⟩ := Nat.exists_eq_add_of_le hi.1
      rw [hturned.moved x (by omega) trivial]
      by_cases hx : x < l2.length
      · rw [Nat.mod_eq_of_lt (by omega)]
        grind
      · rw [Nat.mod_eq_sub_mod (by omega), Nat.mod_eq_of_lt (by omega)]
        grind
    · rw [hturned.outside i (by omega)]
      grind

end EvilHaxe.Ds.ArraySort
