/-
The heights of a balanced tree. `balance` makes a node of two subtrees whose heights differ by three at most; the result
is balanced when the subtrees are, with one exception: where the right one is three higher, its own subtrees are equally
high, and the inner one of these is lower on its right than the left tree.
-/
import EvilHaxe.Ds.BalancedTree
import Mathlib.Tactic.SplitIfs

namespace EvilHaxe.Ds.TreeNode

variable {K V : Type}

def trueHeight : TreeNode K V → Nat
  | null => 0
  | node l _ _ r _ => max l.trueHeight r.trueHeight + 1

/-- The height of every node is the stored one. -/
def Stored : TreeNode K V → Prop
  | null => True
  | node l k v r h => h = (node l k v r h).trueHeight ∧ Stored l ∧ Stored r

/-- The heights of siblings differ by two at most. -/
def Balanced : TreeNode K V → Prop
  | null => True
  | node l _ _ r _ =>
    l.trueHeight ≤ r.trueHeight + 2 ∧ r.trueHeight ≤ l.trueHeight + 2 ∧ Balanced l ∧ Balanced r

def left : TreeNode K V → TreeNode K V
  | null => null
  | node l _ _ _ _ => l

def right : TreeNode K V → TreeNode K V
  | null => null
  | node _ _ _ r _ => r

/-- The right tree is three higher than the left one, and rotated as if its left subtree were the higher one though its
subtrees are equally high. -/
def Slips (l r : TreeNode K V) : Prop :=
  r.getHeight = l.getHeight + 3 ∧ r.left.getHeight = r.right.getHeight ∧ r.left.right.getHeight < l.getHeight

instance (l r : TreeNode K V) : Decidable (Slips l r) := by
  unfold Slips
  infer_instance

variable {l r t : TreeNode K V} {k : K} {v : V} {h : Int}

@[simp] theorem getHeight_null : (null : TreeNode K V).getHeight = 0 := rfl

@[simp] theorem getHeight_node : (node l k v r h).getHeight = h := rfl

theorem Stored.eq (ht : t.Stored) : (t.trueHeight : Int) = t.getHeight := by
  cases t with
  | null => rfl
  | node l k v r h => exact ht.1.symm

theorem Stored.nonneg (ht : t.Stored) : 0 ≤ t.getHeight := by
  have := ht.eq
  omega

theorem Stored.height (ht : (node l k v r h).Stored) : h = max l.getHeight r.getHeight + 1 := by
  obtain ⟨hh, hl, hr⟩ := ht
  rw [hh, ← hl.eq, ← hr.eq, trueHeight]
  omega

theorem stored_node (hl : l.Stored) (hr : r.Stored) (hh : h = max l.getHeight r.getHeight + 1) :
    (node l k v r h).Stored := by
  refine ⟨?_, hl, hr⟩
  rw [hh, ← hl.eq, ← hr.eq, trueHeight]
  omega

theorem new_default : new l k v r = node l k v r (max l.getHeight r.getHeight + 1) := by
  rw [new, if_pos rfl]
  congr 2
  split <;> omega

theorem new_height (hh : h ≠ -1) : new l k v r h = node l k v r h := if_neg hh

theorem balanced_node (hl : l.Stored) (hr : r.Stored) : (node l k v r h).Balanced ↔
    l.getHeight ≤ r.getHeight + 2 ∧ r.getHeight ≤ l.getHeight + 2 ∧ l.Balanced ∧ r.Balanced := by
  rw [Balanced, ← hl.eq, ← hr.eq]
  constructor
  · rintro ⟨h1, h2, h3⟩
    exact ⟨by omega, by omega, h3⟩
  · rintro ⟨h1, h2, h3⟩
    exact ⟨by omega, by omega, h3⟩

theorem pos_cases (ht : t.Stored) (hpos : 0 < t.getHeight) : ∃ l k v r h, t = node l k v r h := by
  cases t with
  | null => exact absurd hpos (Int.lt_irrefl 0)
  | node l k v r h => exact ⟨l, k, v, r, h, rfl⟩

/-! ## Rotations -/

theorem balance_even (hl : l.Stored) (h1 : l.getHeight ≤ r.getHeight + 2)
    (h2 : r.getHeight ≤ l.getHeight + 2) :
    balance l k v r = .ok (node l k v r (max l.getHeight r.getHeight + 1)) := by
  have := hl.nonneg
  rw [balance.eq_def]
  dsimp only
  rw [if_neg (by omega), if_neg (by omega)]
  have hmax : (if l.getHeight > r.getHeight then l.getHeight else r.getHeight) = max l.getHeight r.getHeight := by
    split <;> omega
  rw [hmax, new_height (by omega)]

/-- What `balance` says of two trees whose heights differ by three. -/
structure Rotated (l r t : TreeNode K V) (m : Int) : Prop where
  stored : t.Stored
  least : m ≤ t.getHeight
  most : t.getHeight ≤ m + 1

theorem balance_left (hl : l.Stored) (hb : l.Balanced) (hr : r.Stored) (hd : l.getHeight = r.getHeight + 3) :
    ∃ t, balance l k v r = .ok t ∧ Rotated l r t l.getHeight ∧
      (l.left.getHeight ≠ l.right.getHeight → t.getHeight = l.getHeight) ∧ (t.Balanced ↔ r.Balanced) := by
  have hr0 := hr.nonneg
  obtain ⟨ll, lk, lv, lr, lh, rfl⟩ := pos_cases hl (by omega)
  have hh := hl.height
  obtain ⟨-, hll, hlr⟩ := hl
  obtain ⟨hb1, hb2, hbl, hbr⟩ := (balanced_node hll hlr).mp hb
  simp only [getHeight_node] at hd
  have hhigh : lh > r.getHeight + 2 := by omega
  by_cases hc : ll.getHeight ≥ lr.getHeight
  · have hin : (node lr k v r (max lr.getHeight r.getHeight + 1)).Stored := stored_node hlr hr rfl
    refine ⟨node ll lk lv (node lr k v r (max lr.getHeight r.getHeight + 1))
      (max ll.getHeight (max lr.getHeight r.getHeight + 1) + 1), ?_, ⟨stored_node hll hin rfl, ?_, ?_⟩, ?_, ?_⟩
    · simp only [balance.eq_def, getHeight_node, if_pos hhigh, if_pos hc, new_default]
    · simp only [getHeight_node]
      omega
    · simp only [getHeight_node]
      omega
    · simp only [getHeight_node, left, right]
      omega
    · rw [balanced_node hll hin, balanced_node hlr hr]
      simp only [getHeight_node]
      constructor
      · exact fun h => h.2.2.2.2.2.2
      · exact fun h => ⟨by omega, by omega, hbl, by omega, by omega, hbr, h⟩
  · obtain ⟨lrl, lrk, lrv, lrr, lrh, rfl⟩ := pos_cases hlr (by have := hll.nonneg; omega)
    have hh' := hlr.height
    obtain ⟨-, hlrl, hlrr⟩ := hlr
    obtain ⟨hb3, hb4, hbrl, hbrr⟩ := (balanced_node hlrl hlrr).mp hbr
    simp only [getHeight_node] at hc hh hb1 hb2
    have hin : (node ll lk lv lrl (max ll.getHeight lrl.getHeight + 1)).Stored := stored_node hll hlrl rfl
    have hin' : (node lrr k v r (max lrr.getHeight r.getHeight + 1)).Stored := stored_node hlrr hr rfl
    refine ⟨node (node ll lk lv lrl (max ll.getHeight lrl.getHeight + 1)) lrk lrv
      (node lrr k v r (max lrr.getHeight r.getHeight + 1))
      (max (max ll.getHeight lrl.getHeight + 1) (max lrr.getHeight r.getHeight + 1) + 1), ?_,
      ⟨stored_node hin hin' rfl, ?_, ?_⟩, ?_, ?_⟩
    · simp only [balance.eq_def, getHeight_node, if_pos hhigh, if_neg hc, new_default]
    · simp only [getHeight_node]
      omega
    · simp only [getHeight_node]
      omega
    · simp only [getHeight_node]
      omega
    · rw [balanced_node hin hin', balanced_node hll hlrl, balanced_node hlrr hr]
      simp only [getHeight_node]
      constructor
      · exact fun h => h.2.2.2.2.2.2
      · exact fun h => ⟨by omega, by omega, ⟨by omega, by omega, hbl, hbrl⟩, by omega, by omega, hbrr, h⟩

theorem balance_right (hl : l.Stored) (hr : r.Stored) (hb : r.Balanced) (hd : r.getHeight = l.getHeight + 3) :
    ∃ t, balance l k v r = .ok t ∧ Rotated l r t r.getHeight ∧
      (r.left.getHeight ≠ r.right.getHeight → t.getHeight = r.getHeight) ∧
      (t.Balanced ↔ l.Balanced ∧ ¬ Slips l r) := by
  have hl0 := hl.nonneg
  obtain ⟨rl, rk, rv, rr, rh, rfl⟩ := pos_cases hr (by omega)
  have hh := hr.height
  obtain ⟨-, hrl, hrr⟩ := hr
  obtain ⟨hb1, hb2, hbl, hbr⟩ := (balanced_node hrl hrr).mp hb
  simp only [getHeight_node] at hd
  have hlow : ¬ l.getHeight > rh + 2 := by omega
  have hhigh : rh > l.getHeight + 2 := by omega
  by_cases hc : rr.getHeight > rl.getHeight
  · have hin : (node l k v rl (max l.getHeight rl.getHeight + 1)).Stored := stored_node hl hrl rfl
    refine ⟨node (node l k v rl (max l.getHeight rl.getHeight + 1)) rk rv rr
      (max (max l.getHeight rl.getHeight + 1) rr.getHeight + 1), ?_, ⟨stored_node hin hrr rfl, ?_, ?_⟩, ?_, ?_⟩
    · simp only [balance.eq_def, getHeight_node, if_neg hlow, if_pos hhigh, if_pos hc, new_default]
    · simp only [getHeight_node]
      omega
    · simp only [getHeight_node]
      omega
    · simp only [getHeight_node, left, right]
      omega
    · rw [balanced_node hin hrr, balanced_node hl hrl]
      simp only [getHeight_node, Slips, left, right]
      constructor
      · exact fun h => ⟨h.2.2.1.2.2.1, by omega⟩
      · exact fun h => ⟨by omega, by omega, ⟨by omega, by omega, h.1, hbl⟩, hbr⟩
  · obtain ⟨rll, rlk, rlv, rlr, rlh, rfl⟩ := pos_cases hrl (by have := hrr.nonneg; omega)
    have hh' := hrl.height
    obtain ⟨-, hrll, hrlr⟩ := hrl
    obtain ⟨hb3, hb4, hbll, hblr⟩ := (balanced_node hrll hrlr).mp hbl
    simp only [getHeight_node] at hc hh hb1 hb2
    have hin : (node l k v rll (max l.getHeight rll.getHeight + 1)).Stored := stored_node hl hrll rfl
    have hin' : (node rlr rk rv rr (max rlr.getHeight rr.getHeight + 1)).Stored := stored_node hrlr hrr rfl
    refine ⟨node (node l k v rll (max l.getHeight rll.getHeight + 1)) rlk rlv
      (node rlr rk rv rr (max rlr.getHeight rr.getHeight + 1))
      (max (max l.getHeight rll.getHeight + 1) (max rlr.getHeight rr.getHeight + 1) + 1), ?_,
      ⟨stored_node hin hin' rfl, ?_, ?_⟩, ?_, ?_⟩
    · simp only [balance.eq_def, getHeight_node, if_neg hlow, if_pos hhigh, if_neg hc, new_default]
    · simp only [getHeight_node]
      omega
    · simp only [getHeight_node]
      omega
    · simp only [getHeight_node, left, right]
      omega
    · rw [balanced_node hin hin', balanced_node hl hrll, balanced_node hrlr hrr]
      simp only [getHeight_node, Slips, left, right]
      constructor
      · exact fun h => ⟨h.2.2.1.2.2.1, by omega⟩
      · exact fun h => ⟨by omega, by omega, ⟨by omega, by omega, h.1, hbll⟩, by omega, by omega, hblr, hbr⟩

/-! ## Insertion -/

/-- What an insertion into a tree of height `m` leaves. A tree that became higher has its subtrees at different heights, so that
`balance` does not take it for the equally high ones. -/
structure Grown (m : Int) (t' : TreeNode K V) : Prop where
  stored : t'.Stored
  balanced : t'.Balanced
  least : m ≤ t'.getHeight
  most : t'.getHeight ≤ m + 1
  uneven : t'.getHeight = m + 1 → t'.left.getHeight ≠ t'.right.getHeight ∨ t'.getHeight = 1

theorem grown_left (hl : l.Stored) (hr : r.Stored) (hb : (node l k v r h).Balanced) {l' : TreeNode K V}
    (hg : Grown l.getHeight l') : ∃ t', balance l' k v r = .ok t' ∧ Grown (max l.getHeight r.getHeight + 1) t' := by
  obtain ⟨h1, h2, hbl, hbr⟩ := (balanced_node hl hr).mp hb
  have hleast := hg.least
  have hmost := hg.most
  have hr0 := hr.nonneg
  by_cases hd : l'.getHeight ≤ r.getHeight + 2
  · refine ⟨_, balance_even hg.stored hd (by omega), stored_node hg.stored hr rfl, ?_, ?_, ?_, ?_⟩
    · exact (balanced_node hg.stored hr).mpr ⟨hd, by omega, hg.balanced, hbr⟩
    all_goals
      simp only [getHeight_node, left, right]
      omega
  · have hne := hg.uneven (by omega)
    obtain ⟨t', ht', hrot, hsame, hbal⟩ := balance_left (k := k) (v := v) hg.stored hg.balanced hr (by omega)
    have heq := hsame (by omega)
    refine ⟨t', ht', hrot.stored, hbal.mpr hbr, ?_, ?_, ?_⟩
    all_goals omega

theorem grown_right (hl : l.Stored) (hr : r.Stored) (hb : (node l k v r h).Balanced) {r' : TreeNode K V}
    (hg : Grown r.getHeight r') : ∃ t', balance l k v r' = .ok t' ∧ Grown (max l.getHeight r.getHeight + 1) t' := by
  obtain ⟨h1, h2, hbl, hbr⟩ := (balanced_node hl hr).mp hb
  have hleast := hg.least
  have hmost := hg.most
  have hl0 := hl.nonneg
  by_cases hd : r'.getHeight ≤ l.getHeight + 2
  · refine ⟨_, balance_even hl (by omega) hd, stored_node hl hg.stored rfl, ?_, ?_, ?_, ?_⟩
    · exact (balanced_node hl hg.stored).mpr ⟨by omega, hd, hbl, hg.balanced⟩
    all_goals
      simp only [getHeight_node, left, right]
      omega
  · have hne := hg.uneven (by omega)
    obtain ⟨t', ht', hrot, hsame, hbal⟩ := balance_right (k := k) (v := v) hl hg.stored hg.balanced (by omega)
    have heq := hsame (by omega)
    refine ⟨t', ht', hrot.stored, hbal.mpr ⟨hbl, fun hs => absurd hs.2.1 (by omega)⟩, ?_, ?_, ?_⟩
    all_goals omega

variable (compare : K → K → Int)

theorem setLoop_grown (k : K) (v : V) :
    ∀ t : TreeNode K V, t.Stored → t.Balanced → ∃ t', t.setLoop compare k v = .ok t' ∧ Grown t.getHeight t'
  | null, _, _ => by
    refine ⟨node null k v null 1, by rw [setLoop, new_default]; rfl, ⟨rfl, trivial, trivial⟩,
      ⟨Nat.zero_le _, Nat.zero_le _, trivial, trivial⟩, ?_, ?_, fun _ => .inr rfl⟩
    all_goals
      simp only [getHeight_node, getHeight_null]
      omega
  | node l key value r h, hs, hb => by
    have hh := hs.height
    have hnonneg := hs.nonneg
    have hl := hs.2.1
    have hr := hs.2.2
    rw [setLoop]
    by_cases hc : compare k key = 0
    · rw [if_pos hc]
      rw [getHeight_node] at hnonneg
      rw [new_height (by omega)]
      refine ⟨_, rfl, stored_node hl hr hh, hb, ?_, ?_, ?_⟩
      all_goals
        simp only [getHeight_node]
        omega
    · rw [if_neg hc, getHeight_node, hh]
      split
      · obtain ⟨l', hl', hg⟩ := setLoop_grown k v l hl hb.2.2.1
        rw [hl']
        exact grown_left hl hr hb hg
      · obtain ⟨r', hr', hg⟩ := setLoop_grown k v r hr hb.2.2.2
        rw [hr']
        exact grown_right hl hr hb hg

/-! ## Removal -/

/-- What a removal from a tree of height `m` leaves: it is balanced unless `slips`. -/
structure Shrunk (m : Int) (t' : TreeNode K V) (slips : Bool) : Prop where
  stored : t'.Stored
  least : m - 1 ≤ t'.getHeight
  most : t'.getHeight ≤ m
  balanced : t'.Balanced ↔ slips = false

/-- The left subtree, when it has become `l`, makes a slip with the right one. -/
def leftSlips (l : Except Thrown (TreeNode K V)) (r : TreeNode K V) : Bool :=
  match l with
  | .ok l => decide (Slips l r)
  | .error _ => false

def minSlips : TreeNode K V → Bool
  | null => false
  | node null _ _ _ _ => false
  | node (node ll lk lv lr lh) _ _ r _ =>
    minSlips (node ll lk lv lr lh) || leftSlips (removeMinBinding (node ll lk lv lr lh)) r

def mergeSlips (t1 t2 : TreeNode K V) : Bool :=
  match t1, t2 with
  | null, _ => false
  | _, null => false
  | _, t2 => minSlips t2

/-- The removal of `k` reaches a node whose subtrees make a slip. -/
def removeSlips (k : K) : TreeNode K V → Bool
  | null => false
  | node l key _ r _ =>
    let c := compare k key
    if c = 0 then mergeSlips l r
    else if c < 0 then removeSlips k l || leftSlips (removeLoop compare k l) r
    else removeSlips k r

theorem shrunk_left (hl : l.Stored) (hr : r.Stored) (hb : (node l k v r h).Balanced) {l' : TreeNode K V} {slips : Bool}
    (hg : Shrunk l.getHeight l' slips) : ∃ t', balance l' k v r = .ok t' ∧
      Shrunk (max l.getHeight r.getHeight + 1) t' (slips || leftSlips (.ok l') r) := by
  obtain ⟨h1, h2, hbl, hbr⟩ := (balanced_node hl hr).mp hb
  have hleast := hg.least
  have hmost := hg.most
  have hl0 := hg.stored.nonneg
  by_cases hd : r.getHeight ≤ l'.getHeight + 2
  · refine ⟨_, balance_even hg.stored (by omega) hd, stored_node hg.stored hr rfl, ?_, ?_, ?_⟩
    · simp only [getHeight_node]
      omega
    · simp only [getHeight_node]
      omega
    · have hno : ¬ Slips l' r := fun hs => absurd hs.1 (by omega)
      rw [balanced_node hg.stored hr, hg.balanced, Bool.or_eq_false_iff]
      simp only [leftSlips, decide_eq_false_iff_not]
      exact ⟨fun h => ⟨h.2.2.1, hno⟩, fun h => ⟨by omega, hd, h.1, hbr⟩⟩
  · obtain ⟨t', ht', hrot, -, hbal⟩ := balance_right (k := k) (v := v) hg.stored hr hbr (by omega)
    have hlo := hrot.least
    have hhi := hrot.most
    refine ⟨t', ht', hrot.stored, ?_, ?_, ?_⟩
    · omega
    · omega
    · rw [hbal, hg.balanced, Bool.or_eq_false_iff]
      simp only [leftSlips, decide_eq_false_iff_not]

theorem shrunk_right (hl : l.Stored) (hr : r.Stored) (hb : (node l k v r h).Balanced) {r' : TreeNode K V} {slips : Bool}
    (hg : Shrunk r.getHeight r' slips) : ∃ t', balance l k v r' = .ok t' ∧
      Shrunk (max l.getHeight r.getHeight + 1) t' slips := by
  obtain ⟨h1, h2, hbl, hbr⟩ := (balanced_node hl hr).mp hb
  have hleast := hg.least
  have hmost := hg.most
  have hr0 := hg.stored.nonneg
  by_cases hd : l.getHeight ≤ r'.getHeight + 2
  · refine ⟨_, balance_even hl hd (by omega), stored_node hl hg.stored rfl, ?_, ?_, ?_⟩
    · simp only [getHeight_node]
      omega
    · simp only [getHeight_node]
      omega
    · rw [balanced_node hl hg.stored, hg.balanced]
      exact ⟨fun h => h.2.2.2, fun h => ⟨hd, by omega, hbl, h⟩⟩
  · obtain ⟨t', ht', hrot, -, hbal⟩ := balance_left (k := k) (v := v) hl hbl hg.stored (by omega)
    have hlo := hrot.least
    have hhi := hrot.most
    refine ⟨t', ht', hrot.stored, ?_, ?_, ?_⟩
    · omega
    · omega
    · rw [hbal, hg.balanced]

theorem removeMinBinding_shrunk : ∀ t : TreeNode K V, t.Stored → t.Balanced → t ≠ null →
    ∃ t', t.removeMinBinding = .ok t' ∧ Shrunk t.getHeight t' t.minSlips
  | null, _, _, hn => absurd rfl hn
  | node null k v r h, hs, hb, _ => by
    have hh := hs.height
    have hr0 := hs.2.2.nonneg
    rw [getHeight_null] at hh
    refine ⟨r, rfl, hs.2.2, ?_, ?_, ?_⟩
    · simp only [getHeight_node]
      omega
    · simp only [getHeight_node]
      omega
    · exact ⟨fun _ => rfl, fun _ => hb.2.2.2⟩
  | node (node ll lk lv lr lh) k v r h, hs, hb, _ => by
    obtain ⟨l', hl', hg⟩ := removeMinBinding_shrunk (node ll lk lv lr lh) hs.2.1 hb.2.2.1 (by simp)
    rw [removeMinBinding, minSlips, hl', getHeight_node, hs.height]
    exact shrunk_left hs.2.1 hs.2.2 hb hg

theorem minBinding_ok : ∀ t : TreeNode K V, t ≠ null → ∃ p, t.minBinding = .ok p
  | null, hn => absurd rfl hn
  | node null k v r h, _ => ⟨(k, v), rfl⟩
  | node (node ll lk lv lr lh) k v r h, _ => minBinding_ok (node ll lk lv lr lh) (by simp)

theorem merge_shrunk (hs : (node l k v r h).Stored) (hb : (node l k v r h).Balanced) :
    ∃ t', merge l r = .ok t' ∧ Shrunk h t' (mergeSlips l r) := by
  obtain ⟨h1, h2, hbl, hbr⟩ := (balanced_node hs.2.1 hs.2.2).mp hb
  have hh := hs.height
  cases l with
  | null =>
    have hr0 := hs.2.2.nonneg
    rw [getHeight_null] at hh
    refine ⟨r, rfl, hs.2.2, ?_, ?_, ⟨fun _ => rfl, fun _ => hbr⟩⟩
    all_goals omega
  | node ll lk lv lr lh =>
    cases r with
    | null =>
      have hl0 := hs.2.1.nonneg
      rw [getHeight_null] at hh
      refine ⟨_, rfl, hs.2.1, ?_, ?_, ⟨fun _ => rfl, fun _ => hbl⟩⟩
      all_goals
        rw [getHeight_node] at hh hl0 ⊢
        omega
    | node rl rk rv rr rh =>
      obtain ⟨⟨mk, mv⟩, hm⟩ := minBinding_ok (node rl rk rv rr rh) (by simp)
      obtain ⟨r', hr', hg⟩ := removeMinBinding_shrunk (node rl rk rv rr rh) hs.2.2 hbr (by simp)
      rw [merge, mergeSlips, hm, hr', hh]
      · exact shrunk_right (k := mk) (v := mv) (h := h) hs.2.1 hs.2.2 hb hg
      all_goals simp

theorem removeLoop_shrunk (k : K) : ∀ t : TreeNode K V, t.Stored → t.Balanced →
    t.removeLoop compare k = .error .notFound ∨
      ∃ t', t.removeLoop compare k = .ok t' ∧ Shrunk t.getHeight t' (t.removeSlips compare k)
  | null, _, _ => .inl rfl
  | node l key value r h, hs, hb => by
    rw [removeLoop, removeSlips]
    split
    · exact .inr (merge_shrunk hs hb)
    · rw [getHeight_node, hs.height]
      split
      · rcases removeLoop_shrunk k l hs.2.1 hb.2.2.1 with hn | ⟨l', hl', hg⟩
        · rw [hn]
          exact .inl rfl
        · rw [hl']
          exact .inr (shrunk_left hs.2.1 hs.2.2 hb hg)
      · rcases removeLoop_shrunk k r hs.2.2 hb.2.2.2 with hn | ⟨r', hr', hg⟩
        · rw [hn]
          exact .inl rfl
        · rw [hr']
          exact .inr (shrunk_right hs.2.1 hs.2.2 hb hg)

end EvilHaxe.Ds.TreeNode
