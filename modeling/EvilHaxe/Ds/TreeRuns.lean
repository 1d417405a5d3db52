/-
Runs of a balanced tree. After any sequence of operations on a new tree its bindings are those of a finite map, its keys
are in order and its heights are the stored ones; that its siblings differ by two at most holds up to the first removal
that makes a slip.
-/
import EvilHaxe.Ds.Bindings
import EvilHaxe.Ds.Heights
import Mathlib.Data.List.Induction
import Mathlib.Logic.Function.Basic

namespace EvilHaxe.Ds

open TreeNode

variable {K V : Type} (compare : K → K → Int)

/-! ## The finite map -/

section

variable [DecidableEq K]

def Op.apply (m : K → Option V) : Op K V → K → Option V
  | .set k v => Function.update m k (some v)
  | .remove k => Function.update m k none

def mapOf (ops : List (Op K V)) : K → Option V := ops.foldl Op.apply fun _ => none

/-- The tree is the finite map `m`. -/
structure Represents (m : K → Option V) (t : TreeNode K V) : Prop where
  stored : t.Stored
  ordered : t.keys.Pairwise fun a b => compare a b < 0
  get : ∀ k, t.get compare k = m k
  exists' : ∀ k, t.exists' compare k = (m k).isSome
  keys : ∀ k, k ∈ t.keys ↔ (m k).isSome
  removeAbsent : ∀ k, m k = none → t.remove compare k = .ok (t, false)

/-- What is promised of the tree after `ops`. -/
structure Correct (ops : List (Op K V)) (t : TreeNode K V) : Prop extends Represents compare (mapOf ops) t where
  balanced : t.Balanced

end

/-- The operation reaches a node whose subtrees make a slip. -/
def Op.slips (t : TreeNode K V) : Op K V → Bool
  | .set _ _ => false
  | .remove k => t.removeSlips compare k

variable {compare}

theorem removeSlips_notFound {k : K} : ∀ {t : TreeNode K V},
    t.removeLoop compare k = .error .notFound → t.removeSlips compare k = false
  | null, _ => rfl
  | node l key value r _, h => by
    rw [removeLoop] at h
    rw [removeSlips]
    split at h
    · exact absurd h (merge_found l r)
    · rw [if_neg ‹_›]
      split at h
      · rw [if_pos ‹_›]
        rcases bind_notFound h with h | ⟨l', -, h⟩
        · rw [removeSlips_notFound h, h]
          rfl
        · exact absurd h (balance_found _ _ _ _)
      · rw [if_neg ‹_›]
        rcases bind_notFound h with h | ⟨r', -, h⟩
        · exact removeSlips_notFound h
        · exact absurd h (balance_found _ _ _ _)

section

variable [DecidableEq K]

/-- The invariant, but for the balance. -/
structure Holds (compare : K → K → Int) (m : K → Option V) (t : TreeNode K V) : Prop where
  stored : t.Stored
  ordered : t.Ordered compare
  mem : ∀ k v, (k, v) ∈ t.bindings ↔ m k = some v

omit [DecidableEq K] in
theorem Holds.represents_of {m : K → Option V} {t : TreeNode K V} (hc : TotalOrder compare) (h : Holds compare m t)
    (hremove : ∀ k, t.removeLoop compare k = .error .notFound ∨ ∃ t', t.removeLoop compare k = .ok t') :
    Represents compare m t := by
  have hget (k : K) : t.get compare k = m k := by
    apply Option.ext
    intro v
    rw [get_eq hc h.ordered, h.mem]
  have hkeys (k : K) : k ∈ t.keys ↔ (m k).isSome := by
    rw [mem_keys, Option.isSome_iff_exists]
    exact exists_congr fun v => h.mem k v
  refine ⟨h.stored, h.ordered, hget, fun k => by rw [TreeNode.exists_eq, hget], hkeys, fun k hk => ?_⟩
  rcases hremove k with hn | ⟨t', ht'⟩
  · rw [TreeNode.remove, hn]
  · obtain ⟨v, as, bs, hbs, -⟩ := removeLoop_bindings hc ht'
    have hm := (h.mem k v).mp (by simp [hbs])
    rw [hk] at hm
    cases hm

omit [DecidableEq K] in
theorem Holds.represents {m : K → Option V} {t : TreeNode K V} (hc : TotalOrder compare) (h : Holds compare m t)
    (hb : t.Balanced) : Represents compare m t := by
  refine h.represents_of hc fun k => ?_
  rcases removeLoop_shrunk compare k t h.stored hb with hn | ⟨t', ht', -⟩
  · exact .inl hn
  · exact .inr ⟨t', ht'⟩

omit [DecidableEq K] in
theorem Represents.holds {m : K → Option V} {t : TreeNode K V} (hc : TotalOrder compare) (h : Represents compare m t) :
    Holds compare m t :=
  ⟨h.stored, h.ordered, fun k v => by rw [← get_eq hc h.ordered, h.get]⟩

theorem Holds.set {m : K → Option V} {t t' : TreeNode K V} (hc : TotalOrder compare) (h : Holds compare m t) {k : K} {v : V}
    (ht' : t.setLoop compare k v = .ok t') (hstored : t'.Stored) : Holds compare (Function.update m k (some v)) t' := by
  obtain ⟨hord, hmem⟩ := setLoop_bindings hc h.ordered ht'
  refine ⟨hstored, hord, fun k' v' => ?_⟩
  rw [hmem, h.mem, Function.update_apply, Prod.mk.injEq]
  by_cases hk : k' = k
  · rw [if_pos hk, Option.some.injEq]
    simp only [hk, true_and, ne_eq, not_true_eq_false, and_false, or_false]
    exact eq_comm
  · rw [if_neg hk]
    simp only [hk, false_and, false_or, ne_eq, not_false_eq_true, and_true]

theorem holds_set {m : K → Option V} {t : TreeNode K V} (hc : TotalOrder compare) (h : Holds compare m t)
    (hb : t.Balanced) (k : K) (v : V) :
    ∃ t', t.setLoop compare k v = .ok t' ∧ Holds compare (Function.update m k (some v)) t' ∧ t'.Balanced := by
  obtain ⟨t', ht', hg⟩ := setLoop_grown compare k v t h.stored hb
  exact ⟨t', ht', h.set hc ht' hg.stored, hg.balanced⟩

theorem Holds.removeAbsent {m : K → Option V} {t : TreeNode K V} (hc : TotalOrder compare) (h : Holds compare m t) {k : K}
    (hn : t.removeLoop compare k = .error .notFound) :
    Op.run compare t (.remove k) = .ok t ∧ Holds compare (Function.update m k none) t := by
  have habs : m k = none := by
    rw [Option.eq_none_iff_forall_ne_some]
    exact fun v hv => removeLoop_notFound hc h.ordered hn (mem_keys.mpr ⟨v, (h.mem k v).mpr hv⟩)
  refine ⟨by rw [Op.run, TreeNode.remove, hn]; rfl, ?_⟩
  rw [← habs, Function.update_eq_self]
  exact h

theorem Holds.remove {m : K → Option V} {t t' : TreeNode K V} (hc : TotalOrder compare) (h : Holds compare m t) {k : K}
    (ht' : t.removeLoop compare k = .ok t') (hstored : t'.Stored) :
    Op.run compare t (.remove k) = .ok t' ∧ Holds compare (Function.update m k none) t' := by
  obtain ⟨v, as, bs, hbs, hbs'⟩ := removeLoop_bindings hc ht'
  have hsub : t'.bindings.Sublist t.bindings := by
    rw [hbs, hbs']
    exact (List.Sublist.refl as).append (List.sublist_cons_self _ _)
  refine ⟨by rw [Op.run, TreeNode.remove, ht']; rfl, hstored, ordered_of_sublist h.ordered hsub, ?_⟩
  have hnd : t.bindings.Pairwise fun p q => p.1 ≠ q.1 := by
    have ho := h.ordered
    rw [Ordered, keys_eq, List.pairwise_map] at ho
    refine ho.imp fun {p q} hlt heq => ?_
    rw [(hc.eq_zero _ _).mpr heq] at hlt
    exact absurd hlt (by decide)
  intro k' v'
  rw [Function.update_apply, hbs']
  rw [hbs, List.pairwise_append, List.pairwise_cons] at hnd
  obtain ⟨-, ⟨hnb, -⟩, hna⟩ := hnd
  by_cases hk : k' = k
  · rw [if_pos hk, List.mem_append]
    refine ⟨?_, fun hm => by cases hm⟩
    rintro (hm | hm)
    · exact absurd hk (hna _ hm _ List.mem_cons_self)
    · exact absurd hk.symm (hnb _ hm)
  · rw [if_neg hk, ← h.mem, hbs]
    simp [hk]

theorem holds_remove {m : K → Option V} {t : TreeNode K V} (hc : TotalOrder compare) (h : Holds compare m t)
    (hb : t.Balanced) (k : K) : ∃ t', Op.run compare t (.remove k) = .ok t' ∧
      Holds compare (Function.update m k none) t' ∧ (t'.Balanced ↔ t.removeSlips compare k = false) := by
  rcases removeLoop_shrunk compare k t h.stored hb with hn | ⟨t', ht', hg⟩
  · obtain ⟨hrun, hh⟩ := h.removeAbsent hc hn
    exact ⟨t, hrun, hh, ⟨fun _ => removeSlips_notFound hn, fun _ => hb⟩⟩
  · obtain ⟨hrun, hh⟩ := h.remove hc ht' hg.stored
    exact ⟨t', hrun, hh, hg.balanced⟩

/-- One operation on a balanced tree. -/
theorem step_holds {m : K → Option V} {t : TreeNode K V} (hc : TotalOrder compare) (h : Holds compare m t)
    (hb : t.Balanced) (op : Op K V) :
    ∃ t', op.run compare t = .ok t' ∧ Holds compare (op.apply m) t' ∧ (t'.Balanced ↔ op.slips compare t = false) := by
  cases op with
  | set k v =>
    obtain ⟨t', ht', hh, hb'⟩ := holds_set hc h hb k v
    exact ⟨t', ht', hh, ⟨fun _ => rfl, fun _ => hb'⟩⟩
  | remove k => exact holds_remove hc h hb k

theorem mapOf_append (ops : List (Op K V)) (op : Op K V) : mapOf (ops ++ [op]) = op.apply (mapOf ops) := by
  rw [mapOf, List.foldl_append]
  rfl

omit [DecidableEq K] in
theorem runOps_append (ops : List (Op K V)) (op : Op K V) :
    runOps compare (ops ++ [op]) = runOps compare ops >>= fun t => op.run compare t := by
  simp [runOps, List.foldlM_append]

/-- The run lemma: up to the first slip the tree is balanced. -/
theorem run_holds (hc : TotalOrder compare) (ops : List (Op K V))
    (hno : ∀ pre op, pre ++ [op] <+: ops → ∀ t, runOps compare pre = .ok t → op.slips compare t = false) :
    ∃ t, runOps compare ops = .ok t ∧ Holds compare (mapOf ops) t ∧ t.Balanced := by
  induction ops using List.reverseRecOn with
  | nil => exact ⟨null, rfl, ⟨trivial, by simp [Ordered, keys_eq, bindings], by simp [bindings, mapOf]⟩, trivial⟩
  | append_singleton ops op ih =>
    obtain ⟨t, ht, hh, hb⟩ := ih fun pre op' hpre => hno pre op' (hpre.trans (List.prefix_append _ _))
    obtain ⟨t', ht', hh', hb'⟩ := step_holds hc hh hb op
    refine ⟨t', ?_, mapOf_append ops op ▸ hh', hb'.mpr (hno ops op List.prefix_rfl t ht)⟩
    rw [runOps_append, ht]
    exact ht'

/-- The promise holds after all the operations of a run exactly when none of them makes a slip on the tree before it. -/
theorem correct_iff (hc : TotalOrder compare) (ops : List (Op K V)) :
    (∀ pre, pre <+: ops → ∃ t, runOps compare pre = .ok t ∧ Correct compare pre t) ↔
      ∀ pre op, pre ++ [op] <+: ops → ∀ t, runOps compare pre = .ok t → op.slips compare t = false := by
  constructor
  · intro h pre op hpre t ht
    obtain ⟨t₀, ht₀, hcorrect⟩ := h pre ((List.prefix_append _ _).trans hpre)
    obtain rfl : t₀ = t := by rw [ht₀] at ht; exact Except.ok.inj ht
    obtain ⟨t', ht', -, hb'⟩ := step_holds hc (hcorrect.toRepresents.holds hc) hcorrect.balanced op
    obtain ⟨t'', ht'', hcorrect'⟩ := h (pre ++ [op]) hpre
    have heq : op.run compare t₀ = .ok t'' := by
      rw [← ht'', runOps_append, ht]
      rfl
    obtain rfl : t' = t'' := by rw [ht'] at heq; exact Except.ok.inj heq
    exact hb'.mp hcorrect'.balanced
  · intro hno pre hpre
    obtain ⟨t, ht, hh, hb⟩ := run_holds hc pre fun pre' op hpre' => hno pre' op (hpre'.trans hpre)
    exact ⟨t, ht, hh.represents hc hb, hb⟩

end

/-! ## A slip -/

def natCompare (a b : Nat) : Int := a - b

theorem natCompare_total : TotalOrder natCompare where
  eq_zero a b := by
    unfold natCompare
    omega
  swap a b := by
    unfold natCompare
    omega
  trans a b c := by
    unfold natCompare
    omega

def insertions : List (Op Nat Unit) := [0, 2, 5, 9, 6, 8, 1, 7, 3, 4].map fun k => .set k ()

theorem correct_insertions : ∃ t, runOps natCompare insertions = .ok t ∧ Correct natCompare insertions t := by
  refine (correct_iff natCompare_total insertions).mpr (fun pre op hpre t ht => ?_) insertions List.prefix_rfl
  have hop : op ∈ insertions := hpre.subset (List.mem_append_right _ List.mem_cons_self)
  obtain ⟨k, -, rfl⟩ := List.mem_map.mp hop
  rfl

instance TreeNode.decBalanced : (t : TreeNode K V) → Decidable t.Balanced
  | null => .isTrue trivial
  | node l _ _ r _ =>
    have := decBalanced l
    have := decBalanced r
    inferInstanceAs (Decidable (_ ∧ _ ∧ _ ∧ _))

/-- After the removal of the least key a node has subtrees of the heights 0 and 3. -/
theorem slip_unbalanced :
    ¬ ∃ t, runOps natCompare (insertions ++ [.remove 0]) = .ok t ∧ Correct natCompare (insertions ++ [.remove 0]) t := by
  rintro ⟨t, ht, hcorrect⟩
  have hb : ∀ t', runOps natCompare (insertions ++ [.remove 0]) = .ok t' → ¬ t'.Balanced := by
    rw [show runOps natCompare (insertions ++ [.remove 0]) = .ok _ from rfl]
    rintro t' heq
    cases heq
    decide
  exact hb t ht hcorrect.balanced

end EvilHaxe.Ds
