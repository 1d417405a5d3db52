/-
The bindings of a tree, in order. A rotation keeps them; an insertion and a removal change them in one place; a search
finds them.
-/
import EvilHaxe.Ds.BalancedTree

namespace EvilHaxe.Ds

/-- What a comparison of keys answers. -/
structure TotalOrder {K : Type} (compare : K → K → Int) : Prop where
  eq_zero : ∀ a b, compare a b = 0 ↔ a = b
  swap : ∀ a b, compare a b < 0 ↔ 0 < compare b a
  trans : ∀ a b c, compare a b < 0 → compare b c < 0 → compare a c < 0

theorem TotalOrder.above {K : Type} {compare : K → K → Int} (hc : TotalOrder compare) {a b : K} (h0 : compare a b ≠ 0)
    (h : ¬ compare a b < 0) : compare b a < 0 :=
  (hc.swap b a).mpr (by omega)

namespace TreeNode

variable {K V : Type}

def bindings : TreeNode K V → List (K × V)
  | null => []
  | node l k v r _ => l.bindings ++ (k, v) :: r.bindings

@[simp] theorem bindings_new (l : TreeNode K V) (k : K) (v : V) (r : TreeNode K V) (h : Int) :
    (new l k v r h).bindings = l.bindings ++ (k, v) :: r.bindings := by
  unfold new
  split <;> rfl

theorem bindings_balance {l r t : TreeNode K V} {k : K} {v : V} (h : balance l k v r = .ok t) :
    t.bindings = l.bindings ++ (k, v) :: r.bindings := by
  rw [balance.eq_def] at h
  dsimp only at h
  split at h
  · split at h
    · cases h
    · split at h
      · cases h
        simp [bindings]
      · split at h
        · cases h
        · cases h
          simp [bindings]
  · split at h
    · split at h
      · cases h
      · split at h
        · cases h
          simp [bindings]
        · split at h
          · cases h
          · cases h
            simp [bindings]
    · cases h
      simp

theorem keysLoop_eq (t : TreeNode K V) (acc : List K) : t.keysLoop acc = acc ++ t.bindings.map Prod.fst := by
  induction t generalizing acc with
  | null => simp [keysLoop, bindings]
  | node l k v r h ihl ihr => simp [keysLoop, bindings, ihl, ihr]

theorem keys_eq (t : TreeNode K V) : t.keys = t.bindings.map Prod.fst := keysLoop_eq t []

theorem mem_keys {t : TreeNode K V} {k : K} : k ∈ t.keys ↔ ∃ v, (k, v) ∈ t.bindings := by
  simp [keys_eq]

variable (compare : K → K → Int)

/-- The keys are strictly increasing, in order. -/
def Ordered (t : TreeNode K V) : Prop := t.keys.Pairwise fun a b => compare a b < 0

variable {compare}

theorem ordered_node {l r : TreeNode K V} {k : K} {v : V} {h : Int} : (node l k v r h).Ordered compare ↔
    l.Ordered compare ∧ r.Ordered compare ∧ (∀ a ∈ l.keys, compare a k < 0) ∧ (∀ b ∈ r.keys, compare k b < 0) ∧
      ∀ a ∈ l.keys, ∀ b ∈ r.keys, compare a b < 0 := by
  simp only [Ordered, keys_eq, bindings, List.map_append, List.map_cons, List.pairwise_append, List.pairwise_cons,
    List.mem_cons, forall_eq_or_imp]
  constructor
  · rintro ⟨h1, ⟨h2, h3⟩, h4⟩
    exact ⟨h1, h3, fun a ha => (h4 a ha).1, h2, fun a ha => (h4 a ha).2⟩
  · rintro ⟨h1, h3, h4, h2, h5⟩
    exact ⟨h1, ⟨h2, h3⟩, fun a ha => ⟨h4 a ha, h5 a ha⟩⟩

theorem ordered_congr {t : TreeNode K V} (t' : TreeNode K V) (h : t.bindings = t'.bindings) :
    t.Ordered compare ↔ t'.Ordered compare := by
  rw [Ordered, Ordered, keys_eq, keys_eq, h]

theorem ordered_of_sublist {t t' : TreeNode K V} (ht : t.Ordered compare) (h : t'.bindings.Sublist t.bindings) :
    t'.Ordered compare := by
  rw [Ordered, keys_eq] at ht ⊢
  exact ht.sublist (h.map _)

/-! ## Searching -/

theorem get_eq (hc : TotalOrder compare) {k : K} {v : V} :
    ∀ {t : TreeNode K V}, t.Ordered compare → (t.get compare k = some v ↔ (k, v) ∈ t.bindings)
  | null, _ => by simp [get, bindings]
  | node l key value r h, ht => by
    obtain ⟨hl, hr, hlk, hkr, -⟩ := ordered_node.mp ht
    have hnotl : ¬ compare k key < 0 → (k, v) ∉ l.bindings := fun hn hm => hn (hlk k (mem_keys.mpr ⟨v, hm⟩))
    have hnotr : compare k key ≤ 0 → (k, v) ∉ r.bindings := by
      intro hle hm
      have := (hc.swap key k).mp (hkr k (mem_keys.mpr ⟨v, hm⟩))
      omega
    rw [get, bindings, List.mem_append, List.mem_cons, Prod.mk.injEq]
    split
    · rename_i h0
      obtain rfl := (hc.eq_zero _ _).mp h0
      have hl' := hnotl (by omega)
      have hr' := hnotr (by omega)
      simp only [hl', hr', Option.some.injEq, true_and, false_or, or_false]
      exact eq_comm
    · rename_i h0
      have hne : k ≠ key := fun heq => h0 ((hc.eq_zero _ _).mpr heq)
      split
      · rename_i hlt
        have hr' := hnotr (by omega)
        rw [get_eq hc hl]
        simp only [hne, hr', false_and, or_false]
      · rename_i hlt
        have hl' := hnotl hlt
        rw [get_eq hc hr]
        simp only [hne, hl', false_and, false_or]

theorem exists_eq (k : K) (t : TreeNode K V) : t.exists' compare k = (t.get compare k).isSome := by
  induction t with
  | null => rfl
  | node l key value r h ihl ihr =>
    rw [exists', get]
    split
    · rfl
    · split
      · exact ihl
      · exact ihr

/-! ## Insertion -/

theorem bind_ok {α β : Type} {x : Except Thrown α} {f : α → Except Thrown β} {b : β} (h : x >>= f = .ok b) :
    ∃ a, x = .ok a ∧ f a = .ok b := by
  cases x with
  | error e => cases h
  | ok a => exact ⟨a, rfl, h⟩

theorem setLoop_bindings (hc : TotalOrder compare) {k : K} {v : V} :
    ∀ {t t' : TreeNode K V}, t.Ordered compare → t.setLoop compare k v = .ok t' →
      t'.Ordered compare ∧ ∀ p, p ∈ t'.bindings ↔ p = (k, v) ∨ (p ∈ t.bindings ∧ p.1 ≠ k)
  | null, t', _, h => by
    cases h
    simp [Ordered, keys_eq, bindings]
  | node l key value r ht, t', ho, h => by
    obtain ⟨hl, hr, hlk, hkr, hlr⟩ := ordered_node.mp ho
    have hltn (p : K × V) (hp : p ∈ l.bindings) : compare p.1 key < 0 := hlk p.1 (mem_keys.mpr ⟨p.2, hp⟩)
    have hgtn (p : K × V) (hp : p ∈ r.bindings) : compare key p.1 < 0 := hkr p.1 (mem_keys.mpr ⟨p.2, hp⟩)
    have hne {a b : K} (h : compare a b < 0) : a ≠ b := fun heq => by
      have := (hc.eq_zero a b).mpr heq
      omega
    rw [setLoop] at h
    split at h
    · rename_i h0
      obtain rfl := (hc.eq_zero _ _).mp h0
      cases h
      refine ⟨?_, fun p => ?_⟩
      · rw [Ordered, keys_eq] at ho ⊢
        simpa [bindings] using ho
      · have hl' := fun hp => hne (hltn p hp)
        have hr' := fun hp => (hne (hgtn p hp)).symm
        rw [bindings_new, bindings, List.mem_append, List.mem_cons, List.mem_append, List.mem_cons]
        constructor
        · rintro (hp | rfl | hp)
          · exact .inr ⟨.inl hp, hl' hp⟩
          · exact .inl rfl
          · exact .inr ⟨.inr (.inr hp), hr' hp⟩
        · rintro (rfl | ⟨hp | rfl | hp, hk⟩)
          · exact .inr (.inl rfl)
          · exact .inl hp
          · exact absurd rfl hk
          · exact .inr (.inr hp)
    · rename_i h0
      split at h
      · rename_i hlt
        obtain ⟨l', hl', hbal⟩ := bind_ok h
        obtain ⟨hol, hmem⟩ := setLoop_bindings hc hl hl'
        have hbs := bindings_balance hbal
        have hkr' (b : K) (hb : b ∈ r.keys) : compare k b < 0 := hc.trans _ _ _ hlt (hkr b hb)
        have hlow (a : K) (ha : a ∈ l'.keys) : a = k ∨ a ∈ l.keys := by
          obtain ⟨w, hw⟩ := mem_keys.mp ha
          rcases (hmem _).mp hw with heq | ⟨hw, -⟩
          · exact .inl (congrArg Prod.fst heq)
          · exact .inr (mem_keys.mpr ⟨w, hw⟩)
        refine ⟨(ordered_congr (node l' key value r 0) hbs).mpr (ordered_node.mpr ⟨hol, hr, ?_, hkr, ?_⟩),
          fun p => ?_⟩
        · intro a ha
          rcases hlow a ha with rfl | ha
          · exact hlt
          · exact hlk a ha
        · intro a ha
          rcases hlow a ha with rfl | ha
          · exact hkr'
          · exact hlr a ha
        · have hr' := fun hp => (hne (hkr' p.1 (mem_keys.mpr ⟨p.2, hp⟩))).symm
          rw [hbs, bindings, List.mem_append, List.mem_cons, List.mem_append, List.mem_cons, hmem]
          constructor
          · rintro ((rfl | ⟨hp, hk⟩) | rfl | hp)
            · exact .inl rfl
            · exact .inr ⟨.inl hp, hk⟩
            · exact .inr ⟨.inr (.inl rfl), (hne hlt).symm⟩
            · exact .inr ⟨.inr (.inr hp), hr' hp⟩
          · rintro (rfl | ⟨hp | rfl | hp, hk⟩)
            · exact .inl (.inl rfl)
            · exact .inl (.inr ⟨hp, hk⟩)
            · exact .inr (.inl rfl)
            · exact .inr (.inr hp)
      · rename_i hlt
        have hgt := hc.above h0 hlt
        obtain ⟨r', hr', hbal⟩ := bind_ok h
        obtain ⟨hor, hmem⟩ := setLoop_bindings hc hr hr'
        have hbs := bindings_balance hbal
        have hlk' (a : K) (ha : a ∈ l.keys) : compare a k < 0 := hc.trans _ _ _ (hlk a ha) hgt
        have hhigh (b : K) (hb : b ∈ r'.keys) : b = k ∨ b ∈ r.keys := by
          obtain ⟨w, hw⟩ := mem_keys.mp hb
          rcases (hmem _).mp hw with heq | ⟨hw, -⟩
          · exact .inl (congrArg Prod.fst heq)
          · exact .inr (mem_keys.mpr ⟨w, hw⟩)
        refine ⟨(ordered_congr (node l key value r' 0) hbs).mpr (ordered_node.mpr ⟨hl, hor, hlk, ?_, ?_⟩),
          fun p => ?_⟩
        · intro b hb
          rcases hhigh b hb with rfl | hb
          · exact hgt
          · exact hkr b hb
        · intro a ha b hb
          rcases hhigh b hb with rfl | hb
          · exact hlk' a ha
          · exact hlr a ha b hb
        · have hl' := fun hp => hne (hlk' p.1 (mem_keys.mpr ⟨p.2, hp⟩))
          rw [hbs, bindings, List.mem_append, List.mem_cons, List.mem_append, List.mem_cons, hmem]
          constructor
          · rintro (hp | rfl | rfl | ⟨hp, hk⟩)
            · exact .inr ⟨.inl hp, hl' hp⟩
            · exact .inr ⟨.inr (.inl rfl), hne hgt⟩
            · exact .inl rfl
            · exact .inr ⟨.inr (.inr hp), hk⟩
          · rintro (rfl | ⟨hp | rfl | hp, hk⟩)
            · exact .inr (.inr (.inl rfl))
            · exact .inl hp
            · exact .inr (.inl rfl)
            · exact .inr (.inr (.inr ⟨hp, hk⟩))

/-! ## Removal -/

theorem minBinding_bindings : ∀ {t : TreeNode K V} {p : K × V}, t.minBinding = .ok p →
    ∀ {t'}, t.removeMinBinding = .ok t' → t.bindings = p :: t'.bindings
  | null, _, h, _, _ => nomatch h
  | node null k v r h, p, hp, t', ht => by
    cases hp
    cases ht
    rfl
  | node (node ll lk lv lr lh) k v r h, p, hp, t', ht => by
    obtain ⟨l', hl', hbal⟩ := bind_ok ht
    rw [bindings_balance hbal, bindings, minBinding_bindings (t := node ll lk lv lr lh) hp hl']
    rfl

theorem merge_bindings {l r t : TreeNode K V} (h : merge l r = .ok t) : t.bindings = l.bindings ++ r.bindings := by
  unfold merge at h
  split at h
  · cases h
    rfl
  · cases h
    simp [bindings]
  · obtain ⟨p, hp, h⟩ := bind_ok h
    obtain ⟨r', hr', hbal⟩ := bind_ok h
    rw [bindings_balance hbal, minBinding_bindings hp hr']

/-- A removal takes the one binding of its key away. -/
theorem removeLoop_bindings (hc : TotalOrder compare) {k : K} :
    ∀ {t t' : TreeNode K V}, t.removeLoop compare k = .ok t' →
      ∃ v as bs, t.bindings = as ++ (k, v) :: bs ∧ t'.bindings = as ++ bs
  | null, _, h => nomatch h
  | node l key value r ht, t', h => by
    rw [removeLoop] at h
    split at h
    · rename_i h0
      obtain rfl := (hc.eq_zero _ _).mp h0
      exact ⟨value, l.bindings, r.bindings, rfl, merge_bindings h⟩
    · split at h
      · obtain ⟨l', hl', hbal⟩ := bind_ok h
        obtain ⟨v, as, bs, hl, hl'⟩ := removeLoop_bindings hc hl'
        exact ⟨v, as, bs ++ (key, value) :: r.bindings, by simp [bindings, hl], by simp [bindings_balance hbal, hl']⟩
      · obtain ⟨r', hr', hbal⟩ := bind_ok h
        obtain ⟨v, as, bs, hr, hr'⟩ := removeLoop_bindings hc hr'
        exact ⟨v, l.bindings ++ (key, value) :: as, bs, by simp [bindings, hr], by simp [bindings_balance hbal, hr']⟩

theorem bind_notFound {α β : Type} {x : Except Thrown α} {f : α → Except Thrown β} (h : x >>= f = .error .notFound) :
    x = .error .notFound ∨ ∃ a, x = .ok a ∧ f a = .error .notFound := by
  cases x with
  | error e =>
    cases h
    exact .inl rfl
  | ok a => exact .inr ⟨a, rfl, h⟩

theorem balance_found (l : TreeNode K V) (k : K) (v : V) (r : TreeNode K V) : balance l k v r ≠ .error .notFound := by
  intro h
  rw [balance.eq_def] at h
  dsimp only at h
  repeat' split at h
  all_goals cases h

theorem removeMinBinding_found : ∀ t : TreeNode K V, t.removeMinBinding ≠ .error .notFound
  | null, h => nomatch h
  | node null k v r _, h => nomatch h
  | node (node ll lk lv lr lh) k v r _, h => by
    rcases bind_notFound h with h | ⟨l', -, h⟩
    · exact removeMinBinding_found _ h
    · exact balance_found _ _ _ _ h

theorem minBinding_found : ∀ t : TreeNode K V, t ≠ null → t.minBinding ≠ .error .notFound
  | null, hn, _ => hn rfl
  | node null k v r _, _, h => nomatch h
  | node (node ll lk lv lr lh) k v r _, _, h => minBinding_found (node ll lk lv lr lh) (by simp) h

theorem merge_found (l r : TreeNode K V) : merge l r ≠ .error .notFound := by
  intro h
  unfold merge at h
  split at h
  · cases h
  · cases h
  · rename_i hr
    rcases bind_notFound h with h | ⟨p, -, h⟩
    · exact minBinding_found r (fun heq => hr heq) h
    · rcases bind_notFound h with h | ⟨r', -, h⟩
      · exact removeMinBinding_found _ h
      · exact balance_found _ _ _ _ h

/-- A removal that finds no key. -/
theorem removeLoop_notFound (hc : TotalOrder compare) {k : K} :
    ∀ {t : TreeNode K V}, t.Ordered compare → t.removeLoop compare k = .error .notFound → k ∉ t.keys
  | null, _, _ => by simp [keys_eq, bindings]
  | node l key value r ht, ho, h => by
    obtain ⟨hl, hr, hlk, hkr, -⟩ := ordered_node.mp ho
    have hkeys : (node l key value r ht).keys = l.keys ++ key :: r.keys := by simp [keys_eq, bindings]
    have hirr : ¬ compare k k < 0 := by rw [(hc.eq_zero k k).mpr rfl]; decide
    rw [hkeys, List.mem_append, List.mem_cons]
    rw [removeLoop] at h
    split at h
    · exact absurd h (merge_found l r)
    · rename_i h0
      have hne : k ≠ key := fun heq => h0 ((hc.eq_zero _ _).mpr heq)
      split at h
      · rename_i hlt
        rcases bind_notFound h with h | ⟨l', -, h⟩
        · have hr' : k ∉ r.keys := fun hm => hirr (hc.trans _ _ _ hlt (hkr k hm))
          simp [removeLoop_notFound hc hl h, hne, hr']
        · exact absurd h (balance_found _ _ _ _)
      · rename_i hlt
        rcases bind_notFound h with h | ⟨r', -, h⟩
        · have hl' : k ∉ l.keys := fun hm => hirr (hc.trans _ _ _ (hlk k hm) (hc.above h0 hlt))
          simp [removeLoop_notFound hc hr h, hne, hl']
        · exact absurd h (balance_found _ _ _ _)

end TreeNode

end EvilHaxe.Ds
