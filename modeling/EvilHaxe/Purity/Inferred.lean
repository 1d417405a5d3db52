/-
The work on one field and on all of them. When it is done, the impure nodes are those of `IsImpure`, whatever the order
was in which the fields came.
-/
import EvilHaxe.Purity.Spread

namespace EvilHaxe.Purity

open EvilHaxe.Syntax EvilHaxe.Typed NodeLut

variable {D : Decls}

namespace Program

variable {p : Program D} {l : List (Entry D)} {lut lut' : NodeLut D}

theorem getPurityFromMeta_ne_inferred {metas : List MetadataEntry} :
    getPurityFromMeta (D := D) metas ≠ .ok .inferredPure := by
  unfold getPurityFromMeta purityOfArgs
  split
  · split
    · split_ifs <;> simp
    · simp
    · simp
  · simp

theorem getPurity_ne_inferred {c : D.Cls} {cf : D.Fld} : p.getPurity c cf ≠ .ok .inferredPure := by
  unfold getPurity
  cases getPurityFromMeta (D := D) (p.fld cf).cfMeta with
  | error e => intro h; cases h
  | ok s =>
    cases s with
    | maybePure => exact getPurityFromMeta_ne_inferred
    | _ => intro h; cases h

/-! ## The search of a body -/

/-- The search has passed an effect of `a`: it may go on, and is told when the field that it calls turns impure. -/
def Met (p : Program D) (lut : NodeLut D) (a : Entry D) (x : Effect D) : Prop :=
  p.verdict a.isCtor a.c x = .fine ∨ ∃ c cf, p.verdict a.isCtor a.c x = .calls c cf ∧
    (p.getPurity c cf = .ok .pure ∨ p.getPurity c cf = .ok .expectPure ∨
      ∃ node, lut.find (p.getFieldId c cf) = some node ∧ p.entryId a ∈ node.pnDependents)

theorem Met.ext (hx : lut.Ext lut') {a : Entry D} {x : Effect D} (h : p.Met lut a x) : p.Met lut' a x := by
  refine h.imp_right ?_
  rintro ⟨c, cf, hv, h⟩
  refine ⟨c, cf, hv, h.imp_right fun h => h.imp_right ?_⟩
  rintro ⟨node, hf, hd⟩
  obtain ⟨node', hf', -, -, -, hsub, -⟩ := hx _ node hf
  exact ⟨node', hf', hsub hd⟩

/-- A search of `a` comes to its end, or to the taint of `a`. -/
def Searched (p : Program D) (l : List (Entry D)) (a : Entry D) (lut : NodeLut D) (P : NodeLut D → Prop) : Run D → Prop
  | .next lut' => p.Grown l lut lut' ∧ P lut'
  | .exit lut' => p.Grown l lut lut' ∧ lut'.isImpure (p.entryId a) = true
  | .raise e => p.Fault l e

theorem taintRaise_spec (hp : p.Closed l) {a : Entry D} (ha : a ∈ l) {cur : Current D} (hid : cur.id = p.entryId a)
    (hfuel : l.length < cur.fuel) (hok : p.TableOk l lut) (hsome : (lut.find (p.entryId a)).isSome)
    (himp : p.IsImpure l a.c a.cf) (P : NodeLut D → Prop) : p.Searched l a lut P (p.taintRaise cur lut) := by
  obtain ⟨node, hf⟩ := Option.isSome_iff_exists.1 hsome
  obtain ⟨hc, hcf⟩ := hok.field hp ha hf
  have h := taint_spec hp cur.fuel lut (p.entryId a) node hok hf (by rw [hc, hcf]; exact himp)
    (pending_le.trans_lt hfuel)
  unfold taintRaise
  rw [hid]
  cases hr : p.taint cur.fuel lut (p.entryId a) with
  | ok lut' =>
    rw [hr] at h
    exact h
  | error e =>
    rw [hr] at h
    exact h

/-- A new user of a field that may be pure. -/
theorem noted_spec (hok : p.TableOk l lut) {a : Entry D} (ha : a ∈ l) (hsome : (lut.find (p.entryId a)).isSome)
    {c : D.Cls} {cf : D.Fld} {node : PurityNode D} (hf : lut.find (p.getFieldId c cf) = some node)
    (hc : node.pnClass = c) (hcf : node.pnField = cf) (hm : node.pnPurity = .maybePure)
    (hu : p.Does a (.calls c cf)) :
    let lut' := lut.modify (p.getFieldId c cf) fun node =>
      { node with pnDependents := p.entryId a :: node.pnDependents }
    p.Grown l lut lut' ∧ ∃ node', lut'.find (p.getFieldId c cf) = some node' ∧ p.entryId a ∈ node'.pnDependents := by
  intro lut'
  have hself : lut'.find (p.getFieldId c cf) = some { node with pnDependents := p.entryId a :: node.pnDependents } := by
    rw [find_modify, if_pos rfl, hf]
    rfl
  have hx : lut.Ext lut' := by
    intro id' node' hf'
    by_cases hid : id' = p.getFieldId c cf
    · subst hid
      obtain rfl := Option.some.inj (hf.symm.trans hf')
      refine ⟨_, hself, rfl, rfl, .inl rfl, List.subset_cons_self _ _, fun hi => ?_⟩
      rw [hm] at hi
      cases hi
    · refine ⟨node', ?_, rfl, rfl, .inl rfl, List.Subset.refl _, fun _ => rfl⟩
      rw [find_modify, if_neg hid]
      exact hf'
  have hn := hok _ node hf
  refine ⟨⟨tableOk_modify hok hf hx ⟨hn.entry, hn.state, hn.impure, fun d hd => ?_⟩, hx, fun id hi => .inl ?_⟩,
    _, hself, List.mem_cons_self ..⟩
  · rcases List.mem_cons.1 hd with rfl | hd
    · obtain ⟨s, hs, hst⟩ := hn.state
      refine ⟨hs.trans (congrArg _ ?_), a, ha, rfl, hsome, ?_⟩
      · rcases hst with h | ⟨h, -⟩
        · exact h.symm.trans hm
        · rw [hm] at h
          cases h
      · subst hc hcf
        exact hu
    · exact hn.users d hd
  · obtain ⟨node', hf', hi'⟩ := isImpure_iff.1 hi
    by_cases hid : id = p.getFieldId c cf
    · subst hid
      obtain rfl := Option.some.inj (hself.symm.trans hf')
      rw [hm] at hi'
      cases hi'
    · rw [find_modify, if_neg hid] at hf'
      exact isImpure_iff.2 ⟨node', hf', hi'⟩

theorem inspect_spec (hp : p.Closed l) {a : Entry D} (ha : a ∈ l) {cur : Current D} (hid : cur.id = p.entryId a)
    (hctor : cur.isCtor = a.isCtor) (hc : cur.c = a.c) (hfuel : l.length < cur.fuel) {e : Texpr D} (he : p.Examines a e)
    {x : Effect D} (hx : x ∈ effects e) (hok : p.TableOk l lut) (hsome : (lut.find (p.entryId a)).isSome) :
    p.Searched l a lut (fun lut' => p.Met lut' a x) (p.inspect cur lut x) := by
  unfold inspect
  rw [hctor, hc]
  have hdoes : ∀ {v}, p.verdict a.isCtor a.c x = v → p.Does a v := fun hv => ⟨e, he, x, hx, hv⟩
  cases hv : p.verdict a.isCtor a.c x with
  | fine => exact ⟨.refl hok, .inl hv⟩
  | harm => exact taintRaise_spec hp ha hid hfuel hok hsome (.inr (.harm ha (hdoes hv))) _
  | wrong err => exact .annotated ha (hdoes hv)
  | calls c cf =>
    obtain ⟨b, hb, rfl, rfl⟩ := hp.called a ha c cf (hdoes hv)
    have hnode := getNode_spec hp hok hb
    unfold checkField
    simp only
    cases hg : p.getNode lut b.c b.cf with
    | error err =>
      rw [hg] at hnode
      exact hnode
    | ok r =>
      obtain ⟨lut₁, node⟩ := r
      rw [hg] at hnode
      obtain ⟨hgr, hf, hnc, hncf⟩ := hnode
      simp only at hgr hf hnc hncf ⊢
      obtain ⟨s, hs, hst⟩ := (hgr.ok _ node hf).state
      rw [hnc, hncf] at hs
      have settled : node.pnPurity ≠ .impure → p.getPurity b.c b.cf = .ok node.pnPurity := fun hne => by
        rw [hs, hst.resolve_right fun h => hne h.1]
      have hsome₁ := hgr.ext.isSome hsome
      cases hpur : node.pnPurity with
      | pure => exact ⟨hgr, .inr ⟨_, _, hv, .inl (hpur ▸ settled (by simp [hpur]))⟩⟩
      | expectPure => exact ⟨hgr, .inr ⟨_, _, hv, .inr (.inl (hpur ▸ settled (by simp [hpur])))⟩⟩
      | inferredPure => exact absurd (hpur ▸ settled (by simp [hpur])) getPurity_ne_inferred
      | maybePure =>
        obtain ⟨h₁, h₂⟩ := noted_spec hgr.ok ha hsome₁ hf hnc hncf hpur (hdoes hv)
        simp only [hid]
        exact ⟨hgr.trans h₁, .inr ⟨_, _, hv, .inr (.inr h₂)⟩⟩
      | impure =>
        have himp : p.IsImpure l a.c a.cf := by
          have h := (hgr.ok _ node hf).impure hpur
          rw [hnc, hncf] at h
          rcases h with h | h
          · exact .inr (.callImpure ha (hdoes hv) h)
          · refine .inr (.call ha (hdoes hv) ?_ h)
            rw [hs]
            cases s with
            | maybePure => rfl
            | pure => exact absurd h (hp.trusted a ha _ _ (hdoes hv) hs)
            | impure => exact absurd hs h.ne_impure
            | inferredPure => exact absurd hs getPurity_ne_inferred
            | expectPure =>
              rcases hst with hst | ⟨-, hst⟩
              · rw [hpur] at hst
                cases hst
              · exact absurd rfl hst
        have h := taintRaise_spec hp ha hid hfuel hgr.ok hsome₁ himp (fun lut' => p.Met lut' a x)
        cases hr : p.taintRaise cur lut₁ with
        | next lut₂ =>
          rw [hr] at h
          exact ⟨hgr.trans h.1, h.2⟩
        | exit lut₂ =>
          rw [hr] at h
          exact ⟨hgr.trans h.1, h.2⟩
        | raise err =>
          rw [hr] at h
          exact h

theorem walk_spec (hp : p.Closed l) {a : Entry D} (ha : a ∈ l) (cur : Current D) (hid : cur.id = p.entryId a)
    (hctor : cur.isCtor = a.isCtor) (hc : cur.c = a.c) (hfuel : l.length < cur.fuel) {e : Texpr D} (he : p.Examines a e) :
    ∀ (xs : List (Effect D)) (lut : NodeLut D), xs ⊆ effects e → p.TableOk l lut → (lut.find (p.entryId a)).isSome →
      p.Searched l a lut (fun lut' => ∀ x ∈ xs, p.Met lut' a x) (p.walk cur lut xs)
  | [], lut, _, hok, _ => ⟨.refl hok, fun _ h => (nomatch h)⟩
  | x :: xs, lut, hsub, hok, hsome => by
    have h := inspect_spec hp ha hid hctor hc hfuel he (hsub (List.mem_cons_self ..)) hok hsome
    rw [walk_cons]
    cases hr : p.inspect cur lut x with
    | raise err =>
      rw [hr] at h
      exact h
    | exit lut₁ =>
      rw [hr] at h
      exact h
    | next lut₁ =>
      rw [hr] at h
      obtain ⟨hgr, hmet⟩ := h
      have ih := walk_spec hp ha cur hid hctor hc hfuel he xs lut₁ (List.subset_of_cons_subset hsub) hgr.ok
        (hgr.ext.isSome hsome)
      rw [Run.bind_next]
      cases hw : p.walk cur lut₁ xs with
      | raise err =>
        rw [hw] at ih
        exact ih
      | exit lut₂ =>
        rw [hw] at ih
        exact ⟨hgr.trans ih.1, ih.2⟩
      | next lut₂ =>
        rw [hw] at ih
        exact ⟨hgr.trans ih.1, List.forall_mem_cons.2 ⟨hmet.ext ih.1.ext, ih.2⟩⟩

/-! ## One field -/

/-- What `apply_to_field` has seen to, as long as the field is not impure. -/
def Served (p : Program D) (lut : NodeLut D) (a : Entry D) : Prop :=
  lut.isImpure (p.entryId a) = true ∨ ∃ s, p.declared a = .ok s ∧ s ≠ .impure ∧
    match p.task s a with
    | .taint => False
    | .pass => True
    | .body e => ∀ x ∈ effects e, p.Met lut a x

theorem Served.ext (hx : lut.Ext lut') {a : Entry D} (h : p.Served lut a) : p.Served lut' a := by
  rcases h with h | ⟨s, hs, hne, h⟩
  · exact .inl (hx.impure h)
  · refine .inr ⟨s, hs, hne, ?_⟩
    cases ht : p.task s a with
    | taint =>
      rw [ht] at h
      exact h
    | pass => exact trivial
    | body e =>
      rw [ht] at h
      exact fun x hm => (h x hm).ext hx

/-- The work of `apply_to_field` on a node, by the task of the field. -/
def perform (p : Program D) (fuel : Nat) (lut : NodeLut D) (a : Entry D) (purity : PurityState) :
    Task D → Except (Error D) (NodeLut D)
  | .taint => p.taint fuel lut (p.entryId a)
  | .pass => .ok lut
  | .body e =>
    let cur : Current D := { fuel := fuel, isCtor := a.isCtor, c := a.c, id := p.entryId a }
    (if purity = .impure then p.taintRaise cur lut else p.walk cur lut (effects e)).caught

theorem taintRaise_impure (cur : Current D) {node : PurityNode D} (hf : lut.find cur.id = some node)
    (hi : node.pnPurity = .impure) (hfuel : 0 < cur.fuel) : p.taintRaise cur lut = .exit lut := by
  obtain ⟨n, hn⟩ := Nat.exists_eq_succ_of_ne_zero hfuel.ne'
  unfold taintRaise
  rw [hn]
  simp only [taint, hf, hi]

theorem isPure_eq {c : D.Cls} {cf : D.Fld} {s : PurityState} (hs : p.getPurity c cf = .ok s) :
    p.isPure c cf = .ok (decide (s = .pure)) := by
  unfold isPure
  rw [hs]
  rfl

theorem applyToExpr_eq {fuel : Nat} (hfuel : 0 < fuel) {a : Entry D} {node : PurityNode D} {s : PurityState}
    (hf : lut.find (p.entryId a) = some node) (hs : p.declared a = .ok s)
    (hst : node.pnPurity = s ∨ node.pnPurity = .impure) :
    p.applyToExpr fuel lut node a.isCtor a.c a.cf = p.perform fuel lut a node.pnPurity (p.taskExpr s a) := by
  unfold applyToExpr taskExpr
  have hunknown : (do if ← p.isPure a.c a.cf then .ok lut else p.taint fuel lut (p.getFieldId a.c a.cf)) =
      p.perform fuel lut a node.pnPurity (taskUnknown s) := by
    simp only [isPure_eq hs, taskUnknown, bind, Except.bind]
    by_cases hpure : s = .pure <;> simp [hpure, perform, entryId]
  cases (p.fld a.cf).cfExpr with
  | none => exact hunknown
  | some e =>
    by_cases hforeign : p.hasForeignCode a.c a.cf = true
    · simp only [hforeign, if_true]
      exact hunknown
    · have hexit : node.pnPurity = .impure →
          p.taintRaise { fuel := fuel, isCtor := a.isCtor, c := a.c, id := p.getFieldId a.c a.cf } lut = .exit lut :=
        fun hi => taintRaise_impure _ hf hi hfuel
      simp only [hforeign, Bool.false_eq_true, if_false]
      by_cases hi : node.pnPurity = .impure
      · simp only [hi, hexit hi]
        split_ifs
        · rfl
        · simp only [perform, if_true, entryId, hexit hi, Run.caught]
      · obtain rfl := hst.resolve_right hi
        cases hn : node.pnPurity with
        | impure => exact absurd hn hi
        | pure => rfl
        | maybePure | inferredPure | expectPure =>
          simp only [reduceCtorEq, if_false, perform, loop_eq, entryId]

theorem applyToField_eq {fuel : Nat} (hfuel : 0 < fuel) {a : Entry D} {node : PurityNode D} {s : PurityState}
    (hg : p.getNode lut a.c a.cf = .ok (lut', node)) (hf : lut'.find (p.entryId a) = some node)
    (hs : p.declared a = .ok s) (hst : node.pnPurity = s ∨ node.pnPurity = .impure) :
    p.applyToField fuel lut a = p.perform fuel lut' a node.pnPurity (p.task s a) := by
  unfold applyToField task
  simp only [hg, bind, Except.bind]
  cases (p.fld a.cf).cfKind with
  | var => rfl
  | method k =>
    cases k with
    | methDynamic => rfl
    | _ =>
      simp only
      split_ifs with hov
      · rfl
      · exact applyToExpr_eq hfuel hf hs hst

theorem perform_spec (hp : p.Closed l) {a : Entry D} (ha : a ∈ l) {fuel : Nat} (hfuel : l.length < fuel)
    (hok : p.TableOk l lut) {node : PurityNode D} (hf : lut.find (p.entryId a) = some node) {s : PurityState}
    (hs : p.declared a = .ok s) (hst : node.pnPurity = s ∨ node.pnPurity = .impure ∧ s ≠ .expectPure) :
    p.Ends l (fun lut' => p.Grown l lut lut' ∧ p.Served lut' a) (p.perform fuel lut a node.pnPurity (p.task s a)) := by
  have hsome : (lut.find (p.entryId a)).isSome := by rw [hf]; rfl
  obtain ⟨hc, hcf⟩ := hok.field hp ha hf
  by_cases hi : node.pnPurity = .impure
  · have hself : lut.isImpure (p.entryId a) = true := isImpure_iff.2 ⟨node, hf, hi⟩
    have himp : p.IsImpure l node.pnClass node.pnField := (hok _ node hf).impure hi
    cases p.task s a with
    | taint =>
      refine (taint_spec hp fuel lut _ node hok hf himp (pending_le.trans_lt hfuel)).imp fun lut' h => ⟨h.1, .inl h.2⟩
    | pass => exact ⟨.refl hok, .inl hself⟩
    | body e =>
      have hexit := taintRaise_impure (p := p) { fuel := fuel, isCtor := a.isCtor, c := a.c, id := p.entryId a } hf hi (by simp only; omega)
      simp only [perform, hi, if_true, hexit]
      exact ⟨.refl hok, .inl hself⟩
  · have hst : node.pnPurity = s := hst.resolve_right fun h => hi h.1
    have hne : s ≠ .impure := hst ▸ hi
    cases ht : p.task s a with
    | taint =>
      have himp : p.IsImpure l node.pnClass node.pnField := by
        rw [hc, hcf]
        exact .inr (.task ha hs hne ht)
      refine (taint_spec hp fuel lut _ node hok hf himp (pending_le.trans_lt hfuel)).imp fun lut' h => ⟨h.1, .inl h.2⟩
    | pass => exact ⟨.refl hok, .inr ⟨s, hs, hne, by rw [ht]; exact trivial⟩⟩
    | body e =>
      have h := walk_spec hp ha { fuel := fuel, isCtor := a.isCtor, c := a.c, id := p.entryId a } rfl rfl rfl
        hfuel ⟨s, hs, hne, ht⟩ (effects e) lut (List.Subset.refl _) hok hsome
      simp only [perform, hi, if_false]
      cases hw : p.walk { fuel := fuel, isCtor := a.isCtor, c := a.c, id := p.entryId a } lut (effects e) with
      | next lut' =>
        rw [hw] at h
        exact ⟨h.1, .inr ⟨s, hs, hne, by rw [ht]; exact h.2⟩⟩
      | exit lut' =>
        rw [hw] at h
        exact ⟨h.1, .inl h.2⟩
      | raise err =>
        rw [hw] at h
        exact h

theorem applyToField_spec (hp : p.Closed l) {a : Entry D} (ha : a ∈ l) {fuel : Nat} (hfuel : l.length < fuel)
    (hok : p.TableOk l lut) :
    p.Ends l (fun lut' => p.Grown l lut lut' ∧ (lut'.find (p.entryId a)).isSome ∧ p.Served lut' a)
      (p.applyToField fuel lut a) := by
  have hnode := getNode_spec hp hok ha
  cases hg : p.getNode lut a.c a.cf with
  | error err =>
    rw [hg] at hnode
    unfold applyToField
    simp only [hg, bind, Except.bind]
    exact hnode
  | ok r =>
    obtain ⟨lut₁, node⟩ := r
    rw [hg] at hnode
    obtain ⟨hgr, hf, hc, hcf⟩ := hnode
    obtain ⟨s, hs, hst⟩ := (hgr.ok _ node hf).state
    simp only at hf hc hcf hst
    rw [hc, hcf] at hs
    rw [applyToField_eq (by omega) hg hf hs (hst.imp_right And.left)]
    refine (perform_spec hp ha hfuel hgr.ok hf hs hst).imp fun lut₂ h => ⟨hgr.trans h.1, ?_, h.2⟩
    exact h.1.ext.isSome (by rw [hf]; rfl)

/-! ## All fields -/

theorem iter_fields (hp : p.Closed l) {fuel : Nat} (hfuel : l.length < fuel) : ∀ (as : List (Entry D)) (lut : NodeLut D),
    as ⊆ l → p.TableOk l lut →
      p.Ends l (fun lut' => p.Grown l lut lut' ∧ ∀ a ∈ as, (lut'.find (p.entryId a)).isSome ∧ p.Served lut' a)
        (iter (p.applyToField fuel) lut as)
  | [], lut, _, hok => ⟨.refl hok, fun _ h => (nomatch h)⟩
  | a :: as, lut, hsub, hok => by
    refine (applyToField_spec hp (hsub (List.mem_cons_self ..)) hfuel hok).bind fun lut₁ h₁ => ?_
    refine (iter_fields hp hfuel as lut₁ (List.subset_of_cons_subset hsub) h₁.1.ok).imp fun lut₂ h₂ => ?_
    refine ⟨h₁.1.trans h₂.1, List.forall_mem_cons.2 ⟨⟨h₂.1.ext.isSome h₁.2.1, h₁.2.2.ext h₂.1.ext⟩, h₂.2⟩⟩

/-- A table in which all fields have been seen to. -/
structure Done (p : Program D) (l : List (Entry D)) (lut : NodeLut D) : Prop where
  ok : p.TableOk l lut
  settled : ∀ id, lut.isImpure id = true → p.SettledAt lut id
  node : ∀ a ∈ l, (lut.find (p.entryId a)).isSome
  served : ∀ a ∈ l, p.Served lut a

theorem inferEntries_spec (hp : p.Closed l) : p.Ends l (p.Done l) (p.inferEntries l) := by
  have hempty : p.TableOk l [] := fun _ _ h => (nomatch h)
  refine (iter_fields hp (Nat.lt_succ_self _) l [] (List.Subset.refl _) hempty).imp fun lut h => ?_
  refine ⟨h.1.ok, fun id hi => (h.1.settled id hi).resolve_left ?_, fun a ha => (h.2 a ha).1, fun a ha => (h.2 a ha).2⟩
  intro h
  cases h

/-- What is tainted is found out. -/
theorem Done.impure_of_tainted (hp : p.Closed l) (h : p.Done l lut) {c : D.Cls} {cf : D.Fld} (ht : p.Tainted l c cf) :
    lut.isImpure (p.getFieldId c cf) = true := by
  have does : ∀ {a v}, a ∈ l → p.Does a v → lut.isImpure (p.entryId a) = true ∨
      ∃ x, p.verdict a.isCtor a.c x = v ∧ p.Met lut a x := by
    rintro a v ha ⟨e, ⟨s, hs, -, ht⟩, x, hx, hv⟩
    refine (h.served a ha).imp_right ?_
    rintro ⟨s', hs', -, hm⟩
    obtain rfl := Except.ok.inj (hs.symm.trans hs')
    rw [ht] at hm
    exact ⟨x, hv, hm x hx⟩
  induction ht with
  | @task a s ha hs hne ht =>
    refine (h.served a ha).resolve_right ?_
    rintro ⟨s', hs', -, hm⟩
    obtain rfl := Except.ok.inj (hs.symm.trans hs')
    rw [ht] at hm
    exact hm
  | @harm a ha hd =>
    refine (does ha hd).resolve_right ?_
    rintro ⟨x, hv, hm | ⟨c, cf, hv', -⟩⟩
    · rw [hv] at hm
      cases hm
    · rw [hv] at hv'
      cases hv'
  | @callImpure a c cf ha hd hs =>
    refine (does ha hd).resolve_right ?_
    rintro ⟨x, hv, hm | ⟨c', cf', hv', hm⟩⟩
    · rw [hv] at hm
      cases hm
    · obtain ⟨rfl, rfl⟩ : c = c' ∧ cf = cf' := by
        rw [hv] at hv'
        cases hv'
        exact ⟨rfl, rfl⟩
      obtain ⟨b, hb, rfl, rfl⟩ := hp.called a ha _ _ hd
      rcases hm with hm | hm | ⟨node, hf, hm⟩
      · rw [hs] at hm
        cases hm
      · rw [hs] at hm
        cases hm
      · have hmaybe := ((h.ok _ node hf).users _ hm).1
        obtain ⟨hc, hcf⟩ := h.ok.field hp hb hf
        rw [hc, hcf, hs] at hmaybe
        cases hmaybe
  | @call a c cf ha hd hs _ ih =>
    rcases does ha hd with hi | ⟨x, hv, hm | ⟨c', cf', hv', hm⟩⟩
    · exact hi
    · rw [hv] at hm
      cases hm
    · obtain ⟨rfl, rfl⟩ : c = c' ∧ cf = cf' := by
        rw [hv] at hv'
        cases hv'
        exact ⟨rfl, rfl⟩
      rcases hm with hm | hm | ⟨node, hf, hm⟩
      · rw [hs] at hm
        cases hm
      · rw [hs] at hm
        cases hm
      · obtain ⟨node', hf', hi, hset⟩ := h.settled _ ih
        obtain rfl := Option.some.inj (hf.symm.trans hf')
        rcases hset with hset | hset
        · obtain ⟨b, hb, rfl, rfl⟩ := hp.called a ha _ _ hd
          obtain ⟨hc, hcf⟩ := h.ok.field hp hb hf
          rw [hc, hcf, hs] at hset
          cases hset
        · exact hset.1 _ hm
  | @super c d cf g s ht hg hs hne ih =>
    obtain ⟨b, hb, rfl, rfl⟩ := ht.mem hp
    obtain ⟨node, hf, hi, hset⟩ := h.settled _ ih
    obtain ⟨hc, hcf⟩ := h.ok.field hp hb hf
    rcases hset with hset | hset
    · rw [hc, hcf] at hset
      exact absurd hset ht.ne_impure
    · rw [hc, hcf] at hset
      exact hset.2 d g hg

/-- When all is done, the impure nodes are those of the fields that are impure or tainted. -/
theorem Done.isImpure_iff (hp : p.Closed l) (h : p.Done l lut) {a : Entry D} (ha : a ∈ l) :
    lut.isImpure (p.entryId a) = true ↔ p.IsImpure l a.c a.cf := by
  constructor
  · intro hi
    obtain ⟨node, hf, hi⟩ := NodeLut.isImpure_iff.1 hi
    obtain ⟨hc, hcf⟩ := h.ok.field hp ha hf
    have := (h.ok _ node hf).impure hi
    rw [hc, hcf] at this
    exact this
  · rintro (hs | ht)
    · obtain ⟨node, hf⟩ := Option.isSome_iff_exists.1 (h.node a ha)
      obtain ⟨hc, hcf⟩ := h.ok.field hp ha hf
      obtain ⟨s, hs', hst⟩ := (h.ok _ node hf).state
      rw [hc, hcf, hs] at hs'
      obtain rfl := Except.ok.inj hs'
      exact NodeLut.isImpure_iff.2 ⟨node, hf, hst.elim id And.left⟩
    · exact h.impure_of_tainted hp ht

end Program

end EvilHaxe.Purity
