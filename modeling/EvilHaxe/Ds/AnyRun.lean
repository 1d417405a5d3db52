/-
Runs with slips. A tree that is out of balance keeps its stored heights, and these are all that a rotation relies on: no
operation reaches an empty tree where it needs a node, and the tree is the finite map after any operations whatsoever.
-/
import EvilHaxe.Ds.TreeRuns

namespace EvilHaxe.Ds

namespace TreeNode

variable {K V : Type} {l r t : TreeNode K V} {k : K} {v : V}

theorem stored_new (hl : l.Stored) (hr : r.Stored) : (new l k v r).Stored := by
  rw [new_default]
  exact stored_node hl hr rfl

/-- What is rotated is there, however high it is. -/
theorem balance_stored (hl : l.Stored) (hr : r.Stored) : ∃ t, balance l k v r = .ok t ∧ t.Stored := by
  have hl0 := hl.nonneg
  have hr0 := hr.nonneg
  rw [balance.eq_def]
  dsimp only
  split
  next hhigh =>
    obtain ⟨ll, lk, lv, lr, h, rfl⟩ := pos_cases hl (by omega)
    obtain ⟨-, hll, hlr⟩ := hl
    dsimp only
    split
    next => exact ⟨_, rfl, stored_new hll (stored_new hlr hr)⟩
    next hinner =>
      have := hll.nonneg
      obtain ⟨lrl, lrk, lrv, lrr, h', rfl⟩ := pos_cases hlr (by omega)
      obtain ⟨-, hlrl, hlrr⟩ := hlr
      exact ⟨_, rfl, stored_new (stored_new hll hlrl) (stored_new hlrr hr)⟩
  next =>
    split
    next hhigh =>
      obtain ⟨rl, rk, rv, rr, h, rfl⟩ := pos_cases hr (by omega)
      have hmax := hr.height
      obtain ⟨-, hrl, hrr⟩ := hr
      rw [getHeight_node] at hhigh
      dsimp only
      split
      next => exact ⟨_, rfl, stored_new (stored_new hl hrl) hrr⟩
      next hinner =>
        obtain ⟨rll, rlk, rlv, rlr, h', rfl⟩ := pos_cases hrl (by omega)
        obtain ⟨-, hrll, hrlr⟩ := hrl
        exact ⟨_, rfl, stored_new (stored_new hl hrll) (stored_new hrlr hrr)⟩
    next =>
      rw [new_height (by split <;> omega)]
      exact ⟨_, rfl, stored_node hl hr (by split <;> omega)⟩

theorem removeMinBinding_stored (ht : t.Stored) (hne : t ≠ null) : ∃ t', t.removeMinBinding = .ok t' ∧ t'.Stored := by
  induction t with
  | null => exact absurd rfl hne
  | node l k v r h ihl =>
    obtain ⟨-, hl, hr⟩ := ht
    cases l with
    | null => exact ⟨r, rfl, hr⟩
    | node ll lk lv lr lh =>
      obtain ⟨l', hmin, hl'⟩ := ihl hl (by rintro ⟨⟩)
      rw [removeMinBinding, hmin]
      exact balance_stored hl' hr

theorem merge_stored (hl : l.Stored) (hr : r.Stored) : ∃ t, merge l r = .ok t ∧ t.Stored := by
  cases l with
  | null => exact ⟨r, rfl, hr⟩
  | node ll lk lv lr lh =>
    cases r with
    | null => exact ⟨_, rfl, hl⟩
    | node rl rk rv rr rh =>
      obtain ⟨p, hp⟩ := minBinding_ok (node rl rk rv rr rh) (by rintro ⟨⟩)
      obtain ⟨t, hmin, ht⟩ := removeMinBinding_stored hr (by rintro ⟨⟩)
      rw [merge.eq_def]
      dsimp only
      simp only [hp, hmin, bind, Except.bind]
      exact balance_stored hl ht

variable (compare : K → K → Int)

theorem setLoop_stored (k : K) (v : V) (ht : t.Stored) : ∃ t', t.setLoop compare k v = .ok t' ∧ t'.Stored := by
  induction t with
  | null => exact ⟨_, rfl, stored_new trivial trivial⟩
  | node l key value r h ihl ihr =>
    have hheight := ht.height
    obtain ⟨-, hl, hr⟩ := ht
    have hl0 := hl.nonneg
    rw [setLoop]
    split
    next =>
      rw [new_height (by omega)]
      exact ⟨_, rfl, stored_node hl hr hheight⟩
    next =>
      split
      next =>
        obtain ⟨l', hset, hl'⟩ := ihl hl
        rw [hset]
        exact balance_stored hl' hr
      next =>
        obtain ⟨r', hset, hr'⟩ := ihr hr
        rw [hset]
        exact balance_stored hl hr'

theorem removeLoop_stored (k : K) (ht : t.Stored) :
    t.removeLoop compare k = .error .notFound ∨ ∃ t', t.removeLoop compare k = .ok t' ∧ t'.Stored := by
  induction t with
  | null => exact .inl rfl
  | node l key value r h ihl ihr =>
    obtain ⟨-, hl, hr⟩ := ht
    rw [removeLoop]
    split
    next => exact .inr (merge_stored hl hr)
    next =>
      split
      next =>
        rcases ihl hl with hno | ⟨l', hremove, hl'⟩
        · exact .inl (by rw [hno]; rfl)
        · rw [hremove]
          exact .inr (balance_stored hl' hr)
      next =>
        rcases ihr hr with hno | ⟨r', hremove, hr'⟩
        · exact .inl (by rw [hno]; rfl)
        · rw [hremove]
          exact .inr (balance_stored hl hr')

end TreeNode

variable {K V : Type} [DecidableEq K] {compare : K → K → Int}

theorem Holds.step {m : K → Option V} {t : TreeNode K V} (hc : TotalOrder compare) (h : Holds compare m t) (op : Op K V) :
    ∃ t', op.run compare t = .ok t' ∧ Holds compare (op.apply m) t' := by
  cases op with
  | set k v =>
    obtain ⟨t', hset, hstored⟩ := TreeNode.setLoop_stored compare k v h.stored
    exact ⟨t', hset, h.set hc hset hstored⟩
  | remove k =>
    rcases TreeNode.removeLoop_stored compare k h.stored with hn | ⟨t', hremove, hstored⟩
    · exact ⟨t, h.removeAbsent hc hn⟩
    · exact ⟨t', h.remove hc hremove hstored⟩

/-- Every operation of every run returns, and the tree behind it is the finite map, balanced or not. -/
theorem run_represents (hc : TotalOrder compare) (ops : List (Op K V)) :
    ∃ t, runOps compare ops = .ok t ∧ Represents compare (mapOf ops) t := by
  have hholds : ∃ t, runOps compare ops = .ok t ∧ Holds compare (mapOf ops) t := by
    induction ops using List.reverseRecOn with
    | nil => exact ⟨.null, rfl, trivial, by simp [TreeNode.Ordered, TreeNode.keys_eq, TreeNode.bindings],
        by simp [TreeNode.bindings, mapOf]⟩
    | append_singleton ops op ih =>
      obtain ⟨t, ht, hh⟩ := ih
      obtain ⟨t', ht', hh'⟩ := hh.step hc op
      refine ⟨t', ?_, mapOf_append ops op ▸ hh'⟩
      rw [runOps_append, ht]
      exact ht'
  obtain ⟨t, ht, hh⟩ := hholds
  refine ⟨t, ht, hh.represents_of hc fun k => ?_⟩
  rcases TreeNode.removeLoop_stored compare k hh.stored with hn | ⟨t', hremove, -⟩
  · exact .inl hn
  · exact .inr ⟨t', hremove⟩

/-- `run_represents` at the run that ends out of balance. -/
theorem run_represents_slip : ∃ t, runOps natCompare (insertions ++ [.remove 0]) = .ok t ∧
    Represents natCompare (mapOf (insertions ++ [.remove 0])) t :=
  run_represents natCompare_total _

end EvilHaxe.Ds
