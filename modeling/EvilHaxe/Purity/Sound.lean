/-
What the marks of an inference say: a field that is marked does nothing but what a pure field may do, through all that
it calls, and which fields are marked does not depend on the order of the fields.
-/
import EvilHaxe.Purity.Inferred

namespace EvilHaxe.Purity

open EvilHaxe.Syntax EvilHaxe.Typed NodeLut

variable {D : Decls}

namespace Program

variable (p : Program D)

/-! ## Programs as the typer leaves them -/

/-- The field that an effect of `a` calls. -/
def Calls (a : Entry D) (x : Effect D) (c : D.Cls) (cf : D.Fld) : Prop := p.verdict a.isCtor a.c x = .calls c cf

/-- The types of a program: the classes that it extends and uses are there, a field is in one class, has a name of its own
in it, and is called by it. A call to an overload, of which there are several of one name, is none to a field of the
class. What is called as declared pure is a proper method. -/
structure WellFormed (types : List D.Cls) : Prop where
  superTypes : ∀ c ∈ types, ∀ d, (p.cls c).clSuper = some d → d ∈ types
  classFields : ∀ c ∈ types, ∀ cf ∈ (p.cls c).clFields, cf ∈ (p.cls c).clOrderedFields
  ids : ∀ a ∈ p.entries types, ∀ b ∈ p.entries types, p.entryId a = p.entryId b → a = b
  fields : ∀ a ∈ p.entries types, ∀ b ∈ p.entries types, a.cf = b.cf → a = b
  statics : ∀ a ∈ p.entries types, ∀ e, (p.fld a.cf).cfExpr = some e → ∀ c cf, .callStatic c cf ∈ effects e →
    c ∈ types ∧ cf ∈ (p.cls c).clOrderedStatics
  news : ∀ a ∈ p.entries types, ∀ e, (p.fld a.cf).cfExpr = some e → ∀ c, .construct c ∈ effects e → c ∈ types
  proper : ∀ a ∈ p.entries types, ∀ e, (p.fld a.cf).cfExpr = some e → ∀ x ∈ effects e, ∀ c cf, p.Calls a x c cf →
    p.getPurity c cf = .ok .pure → (p.fld cf).cfKind ≠ .var ∧ (p.fld cf).cfKind ≠ .method .methDynamic
  /-- `for` loops have been rewritten. -/
  remapped : ∀ a ∈ p.entries types, ∀ e, (p.fld a.cf).cfExpr = some e → .iterates ∉ effects e

/-! ## What a pure field may do -/

/-- Marked as pure, or expected to be as it overrides a field that is. -/
def PureField (c : D.Cls) (cf : D.Fld) : Prop := p.getPurity c cf = .ok .pure ∨ p.getPurity c cf = .ok .expectPure

/-- An effect that a pure field may have. A constructor may write to the fields of the new object, and what is under
`@:pure` is taken at its word. -/
def Harmless (a : Entry D) : Effect D → Prop
  | .writeLocal v => p.hasReferenceSemantics v.vType = false
  | .writeOwn => a.isCtor = true
  | .writeOther | .throws | .callOther | .iterates => False
  | .callStatic c cf => p.PureField c cf
  | .construct c => ∃ cf, (p.cls c).clConstructor = some cf ∧ p.PureField c cf
  | .callSuper => ∃ c cf, (p.cls a.c).clSuper = some c ∧ (p.cls c).clConstructor = some cf ∧ p.PureField c cf
  | .annotated m => ∃ s : PurityState, getPurityFromMeta (D := D) [m] = .ok s ∧ s ≠ .impure

def Verified (a : Entry D) : Prop := ∃ e, (p.fld a.cf).cfExpr = some e ∧ ∀ x ∈ effects e, p.Harmless a x

/-- One field calls another in its body, and has not been declared pure. -/
def Uses (types : List D.Cls) (a b : Entry D) : Prop :=
  b ∈ p.entries types ∧ p.declared a ≠ .ok .pure ∧
    ∃ e, (p.fld a.cf).cfExpr = some e ∧ ∃ x ∈ effects e, p.Calls a x b.c b.cf

variable {p} {types : List D.Cls} {l : List (Entry D)} {lut : NodeLut D}

theorem task_body {s : PurityState} {a : Entry D} {e : Texpr D} (h : p.task s a = .body e) :
    (p.fld a.cf).cfExpr = some e ∧ s ≠ .pure := by
  have of_expr : p.taskExpr s a = .body e → (p.fld a.cf).cfExpr = some e ∧ s ≠ .pure := by
    unfold taskExpr taskUnknown
    split
    · split_ifs <;> simp
    · rename_i e' he
      split_ifs with h1 h2 h3
      · simp
      · simp
      · simp
      · intro h
        cases h
        exact ⟨he, h3⟩
  unfold task at h
  split at h
  · cases h
  · cases h
  · split_ifs at h
    exact of_expr h

theorem Does.body {a : Entry D} {v : Verdict D} (h : p.Does a v) :
    ∃ e, (p.fld a.cf).cfExpr = some e ∧ ∃ x ∈ effects e, p.verdict a.isCtor a.c x = v := by
  obtain ⟨e, ⟨s, -, -, ht⟩, h⟩ := h
  exact ⟨e, (task_body ht).1, h⟩

theorem mem_entries {a : Entry D} : a ∈ p.entries types ↔ a.c ∈ types ∧ a ∈ p.entriesOfClass a.c := by
  have hc : ∀ {c}, a ∈ p.entriesOfClass c → c = a.c := by
    intro c h
    simp only [entriesOfClass, List.mem_append, List.mem_map] at h
    rcases h with (⟨_, -, rfl⟩ | ⟨_, -, rfl⟩) | ⟨_, -, rfl⟩ <;> rfl
  unfold entries
  rw [List.mem_flatMap]
  constructor
  · rintro ⟨c, hm, h⟩
    obtain rfl := hc h
    exact ⟨hm, h⟩
  · rintro ⟨hm, h⟩
    exact ⟨a.c, hm, h⟩

theorem mem_entries_static {c : D.Cls} {cf : D.Fld} (hc : c ∈ types) (h : cf ∈ (p.cls c).clOrderedStatics) :
    (⟨false, true, c, cf⟩ : Entry D) ∈ p.entries types := by
  refine mem_entries.2 ⟨hc, ?_⟩
  simp [entriesOfClass, h]

theorem mem_entries_field {c : D.Cls} {cf : D.Fld} (hc : c ∈ types) (h : cf ∈ (p.cls c).clOrderedFields) :
    (⟨false, false, c, cf⟩ : Entry D) ∈ p.entries types := by
  refine mem_entries.2 ⟨hc, ?_⟩
  simp [entriesOfClass, h]

theorem mem_entries_ctor {c : D.Cls} {cf : D.Fld} (hc : c ∈ types) (h : (p.cls c).clConstructor = some cf) :
    (⟨true, false, c, cf⟩ : Entry D) ∈ p.entries types := by
  refine mem_entries.2 ⟨hc, ?_⟩
  simp [entriesOfClass, h]

/-- What is called is a static field or a constructor. -/
theorem WellFormed.callee (hp : p.WellFormed types) {a : Entry D} (ha : a ∈ p.entries types) {e : Texpr D}
    (he : (p.fld a.cf).cfExpr = some e) {x : Effect D} (hx : x ∈ effects e) {c : D.Cls} {cf : D.Fld}
    (hc : p.Calls a x c cf) : ∃ b ∈ p.entries types, b.c = c ∧ b.cf = cf ∧ (b.isStatic = true ∨ b.isCtor = true) := by
  unfold Calls at hc
  cases x with
  | callStatic c' cf' =>
    cases hc
    obtain ⟨h1, h2⟩ := hp.statics a ha e he _ _ hx
    exact ⟨_, mem_entries_static h1 h2, rfl, rfl, .inl rfl⟩
  | construct c' =>
    simp only [verdict] at hc
    cases hk : (p.cls c').clConstructor with
    | none =>
      rw [hk] at hc
      cases hc
    | some k =>
      rw [hk] at hc
      cases hc
      exact ⟨_, mem_entries_ctor (hp.news a ha e he _ hx) hk, rfl, rfl, .inr rfl⟩
  | callSuper =>
    simp only [verdict] at hc
    cases hs : (p.cls a.c).clSuper with
    | none =>
      rw [hs] at hc
      cases hc
    | some d =>
      simp only [hs] at hc
      cases hk : (p.cls d).clConstructor with
      | none =>
        rw [hk] at hc
        cases hc
      | some k =>
        rw [hk] at hc
        cases hc
        exact ⟨_, mem_entries_ctor (hp.superTypes a.c (mem_entries.1 ha).1 _ hs) hk, rfl, rfl, .inr rfl⟩
  | writeLocal v =>
    simp only [verdict] at hc
    split_ifs at hc
  | writeOwn =>
    simp only [verdict] at hc
    split_ifs at hc
  | annotated m =>
    simp only [verdict] at hc
    split at hc <;> cases hc
  | writeOther | throws | callOther | iterates => cases hc

theorem WellFormed.super_mem (hp : p.WellFormed types) {c d : D.Cls} (hc : c ∈ types)
    (h : Relation.TransGen (fun c d => (p.cls c).clSuper = some d) c d) : d ∈ types := by
  induction h with
  | single h => exact hp.superTypes _ hc _ h
  | tail _ h ih => exact hp.superTypes _ ih _ h

theorem WellFormed.superField (hp : p.WellFormed types) {c d : D.Cls} (hc : c ∈ types) {name : String} {g : D.Fld}
    (hg : p.SuperField c name d g) : (⟨false, false, d, g⟩ : Entry D) ∈ p.entries types := by
  have hd : d ∈ types := hp.super_mem hc hg.1
  exact mem_entries_field hd (hp.classFields d hd g (List.mem_of_find?_eq_some hg.2))

theorem Tainted.class_mem (hp : p.WellFormed types) (hl : l ⊆ p.entries types) {c : D.Cls} {cf : D.Fld}
    (h : p.Tainted l c cf) : c ∈ types := by
  induction h with
  | task ha _ _ _ => exact (mem_entries.1 (hl ha)).1
  | harm ha _ => exact (mem_entries.1 (hl ha)).1
  | callImpure ha _ _ => exact (mem_entries.1 (hl ha)).1
  | call ha _ _ _ _ => exact (mem_entries.1 (hl ha)).1
  | super _ hg _ _ ih => exact hp.super_mem ih hg.1

theorem taskUnknown_pure : (taskUnknown .pure : Task D) = .pass := rfl

theorem task_pure {b : Entry D} (hrole : b.isStatic = true ∨ b.isCtor = true) (hv : (p.fld b.cf).cfKind ≠ .var)
    (hd : (p.fld b.cf).cfKind ≠ .method .methDynamic) : p.task .pure b = .pass := by
  have hexpr : p.taskExpr .pure b = .pass := by
    unfold taskExpr
    cases (p.fld b.cf).cfExpr with
    | none => rfl
    | some e => simp only [taskUnknown_pure, if_true, ite_self]
  have hov : ¬ (b.isStatic = false ∧ b.isCtor = false) := by
    rintro ⟨h1, h2⟩
    rcases hrole with h | h
    · rw [h1] at h
      cases h
    · rw [h2] at h
      cases h
  unfold task
  split
  · exact absurd ‹_› hd
  · exact absurd ‹_› hv
  · rw [if_neg, hexpr]
    rintro ⟨-, h⟩
    push Not at h
    exact hov ⟨by simpa using h.1, by simpa using h.2.1⟩

theorem Does.not_pure {a : Entry D} {v : Verdict D} (h : p.Does a v) : p.declared a ≠ .ok .pure := by
  obtain ⟨e, ⟨s, hs, -, ht⟩, -⟩ := h
  rw [hs]
  intro h
  exact (task_body ht).2 (Except.ok.inj h)

/-- A proper method that is called and declared pure is not tainted. -/
theorem not_tainted_of_pure (hp : p.WellFormed types) (hl : l ⊆ p.entries types) {b : Entry D} (hb : b ∈ p.entries types)
    (hrole : b.isStatic = true ∨ b.isCtor = true) (hs : p.declared b = .ok .pure) (hv : (p.fld b.cf).cfKind ≠ .var)
    (hd : (p.fld b.cf).cfKind ≠ .method .methDynamic) : ¬ p.Tainted l b.c b.cf := by
  have key : ∀ {c cf}, p.Tainted l c cf → cf ≠ b.cf := by
    intro c cf ht hcf
    cases ht with
    | task ha hs' hne ht =>
      obtain rfl := hp.fields _ (hl ha) _ hb hcf
      obtain rfl := Except.ok.inj (hs.symm.trans hs')
      rw [task_pure hrole hv hd] at ht
      cases ht
    | harm ha h =>
      obtain rfl := hp.fields _ (hl ha) _ hb hcf
      exact h.not_pure hs
    | callImpure ha h _ =>
      obtain rfl := hp.fields _ (hl ha) _ hb hcf
      exact h.not_pure hs
    | call ha h _ _ =>
      obtain rfl := hp.fields _ (hl ha) _ hb hcf
      exact h.not_pure hs
    | super h hg _ _ =>
      obtain rfl := hp.fields _ (hp.superField (h.class_mem hp hl) hg) _ hb hcf
      rcases hrole with h | h <;> cases h
  exact fun ht => key ht rfl

/-- The programs of the typer are closed, in any order of the fields. -/
theorem WellFormed.closed (hp : p.WellFormed types) (hl : l.Perm (p.entries types)) : p.Closed l := by
  have hmem : ∀ {a}, a ∈ l ↔ a ∈ p.entries types := hl.mem_iff
  refine ⟨fun a ha b hb => hp.ids a (hmem.1 ha) b (hmem.1 hb), fun a ha c cf hd => ?_, fun a ha d g hg => ?_,
    fun a ha c cf hd hs => ?_⟩
  · obtain ⟨e, he, x, hx, hv⟩ := hd.body
    obtain ⟨b, hb, hc, hcf, -⟩ := hp.callee (hmem.1 ha) he hx hv
    exact ⟨b, hmem.2 hb, hc, hcf⟩
  · exact ⟨_, hmem.2 (hp.superField (mem_entries.1 (hmem.1 ha)).1 hg), rfl, rfl⟩
  · obtain ⟨e, he, x, hx, hv⟩ := hd.body
    obtain ⟨b, hb, rfl, rfl, hrole⟩ := hp.callee (hmem.1 ha) he hx hv
    obtain ⟨h1, h2⟩ := hp.proper a (hmem.1 ha) e he x hx _ _ hv hs
    exact not_tainted_of_pure hp (fun a ha => hmem.1 ha) hb hrole hs h1 h2

/-! ## The marks -/

theorem mem_nodes {node : PurityNode D} : node ∈ lut.nodes ↔ ∃ id, lut.find id = some node := by
  unfold nodes
  rw [List.mem_filterMap]
  constructor
  · rintro ⟨⟨id, n⟩, -, h⟩
    exact ⟨id, h⟩
  · rintro ⟨id, h⟩
    have hmem : ∃ n, (id, n) ∈ lut := by
      induction lut with
      | nil => cases h
      | cons x rest ih =>
        obtain ⟨k, n⟩ := x
        rw [find_cons] at h
        split_ifs at h with hk
        · exact ⟨n, hk ▸ List.mem_cons_self ..⟩
        · obtain ⟨n', hn'⟩ := ih h
          exact ⟨n', List.mem_cons_of_mem _ hn'⟩
    obtain ⟨n, hn⟩ := hmem
    exact ⟨(id, n), hn, h⟩

/-- The fields that get a mark. -/
def Left (p : Program D) (l : List (Entry D)) (a : Entry D) : Prop :=
  ¬ p.IsImpure l a.c a.cf ∧ (p.declared a = .ok .pure ∨ p.declared a = .ok .maybePure) ∧
    (p.fld a.cf).cfMeta.any isPureMeta = false

/-- The node of a field that has been seen to. -/
theorem Done.node_state (hp : p.Closed l) (h : p.Done l lut) {a : Entry D} (ha : a ∈ l) :
    ∃ node s, lut.find (p.entryId a) = some node ∧ node.pnField = a.cf ∧ p.declared a = .ok s ∧
      (p.IsImpure l a.c a.cf ∧ node.pnPurity = .impure ∧ s ≠ .expectPure ∨
        ¬ p.IsImpure l a.c a.cf ∧ node.pnPurity = s) := by
  obtain ⟨node, hf⟩ := Option.isSome_iff_exists.1 (h.node a ha)
  obtain ⟨hc, hcf⟩ := h.ok.field hp ha hf
  obtain ⟨s, hs, hst⟩ := (h.ok _ node hf).state
  rw [hc, hcf] at hs
  refine ⟨node, s, hf, hcf, hs, ?_⟩
  have hiff := h.isImpure_iff hp ha
  by_cases hi : p.IsImpure l a.c a.cf
  · obtain ⟨node', hf', hi'⟩ := NodeLut.isImpure_iff.1 (hiff.2 hi)
    obtain rfl := Option.some.inj (hf.symm.trans hf')
    refine .inl ⟨hi, hi', ?_⟩
    rcases hst with hst | ⟨-, hst⟩
    · rw [← hst, hi']
      simp
    · exact hst
  · refine .inr ⟨hi, hst.resolve_right fun hst => hi ?_⟩
    exact hiff.1 (NodeLut.isImpure_iff.2 ⟨node, hf, hst.1⟩)

/-- The metadata that a field without `@:pure` has. -/
theorem any_isPureMeta_of_maybe {c : D.Cls} {cf : D.Fld} (h : p.getPurity c cf = .ok .maybePure) :
    (p.fld cf).cfMeta.any isPureMeta = false := by
  by_contra hany
  obtain ⟨m, hm⟩ := Option.isSome_iff_exists.1 (List.find?_isSome.2 (List.any_eq_true.1 (Bool.eq_true_of_not_eq_false hany)))
  unfold getPurity getPurityFromMeta at h
  rw [hm] at h
  obtain ⟨name, args⟩ := m
  have hargs : purityOfArgs (D := D) args ≠ .ok .maybePure := by
    unfold purityOfArgs
    split
    · split_ifs <;> simp
    · simp
    · simp
  simp only at h
  cases ha : purityOfArgs (D := D) args with
  | error e =>
    rw [ha] at h
    cases h
  | ok s =>
    rw [ha] at h hargs
    cases s with
    | maybePure => exact hargs rfl
    | _ => cases h

theorem task_pass {s : PurityState} {a : Entry D} (h : p.task s a = .pass) : s = .pure := by
  by_contra hs
  have hexpr : p.taskExpr s a ≠ .pass := by
    unfold taskExpr taskUnknown
    cases (p.fld a.cf).cfExpr with
    | none => simp [hs]
    | some e =>
      cases p.hasForeignCode a.c a.cf <;> simp [hs]
  unfold task at h
  split at h
  · cases h
  · cases h
  · split_ifs at h
    exact hexpr h

/-- A harmless call is one to a pure field. -/
theorem Harmless.calls {q : Program D} {a : Entry D} {x : Effect D} (h : q.Harmless a x) {c : D.Cls} {cf : D.Fld}
    (hc : q.Calls a x c cf) : q.PureField c cf := by
  unfold Calls at hc
  cases x with
  | callStatic c' cf' =>
    cases hc
    exact h
  | construct c' =>
    obtain ⟨k, hk, h⟩ := h
    simp only [verdict, hk] at hc
    cases hc
    exact h
  | callSuper =>
    obtain ⟨d, k, hs, hk, h⟩ := h
    simp only [verdict, hs, hk] at hc
    cases hc
    exact h
  | writeLocal v =>
    simp only [verdict] at hc
    split_ifs at hc
  | writeOwn =>
    simp only [verdict] at hc
    split_ifs at hc
  | annotated m =>
    simp only [verdict] at hc
    split at hc <;> cases hc
  | writeOther | throws | callOther | iterates => cases hc

/-- If one order of the fields comes to an end, then so does another, unless a `@:pure` in a body has no proper value. -/
theorem inferEntries_ends (hp : p.WellFormed types) (hl : l.Perm (p.entries types)) (h : p.Done l lut)
    (hmetas : ∀ a ∈ p.entries types, ∀ err, ¬ p.Does a (.wrong err)) {l' : List (Entry D)}
    (hl' : l'.Perm (p.entries types)) : ∃ lut', p.inferEntries l' = .ok lut' := by
  have hspec := inferEntries_spec (hp.closed hl')
  cases hr : p.inferEntries l' with
  | ok lut' => exact ⟨lut', rfl⟩
  | error err =>
    rw [hr] at hspec
    have hperm := hl'.trans hl.symm
    cases hspec with
    | @declared a _ ha he =>
      obtain ⟨-, s, -, -, hs, -⟩ := h.node_state (hp.closed hl) (hperm.mem_iff.1 ha)
      rw [he] at hs
      cases hs
    | @annotated a _ ha hd => exact absurd hd (hmetas a (hl'.mem_iff.1 ha) err)
    | @conflict a ha hs ht =>
      obtain ⟨_, s, -, -, hs', hst⟩ := h.node_state (hp.closed hl) (hperm.mem_iff.1 ha)
      obtain rfl := Except.ok.inj (hs.symm.trans hs')
      rcases hst with ⟨-, -, hst⟩ | ⟨hi, -⟩
      · exact absurd rfl hst
      · exact absurd (.inr (ht.mono hperm.subset)) hi

section Marks

variable [DecidableEq D.Fld]

theorem inferredMeta_eq (hp : p.WellFormed types) (hl : l.Perm (p.entries types)) (h : p.Done l lut) {a : Entry D}
    (ha : a ∈ l) [Decidable (p.Left l a)] :
    p.inferredMeta lut a.cf = if p.Left l a then .mk ":pure" [.eConst (.ident "inferredPure")] :: (p.fld a.cf).cfMeta
      else (p.fld a.cf).cfMeta := by
  obtain ⟨node, s, hf, hcf, hs, hst⟩ := h.node_state (hp.closed hl) ha
  have hiff : (lut.nodes.any fun node => node.pnField = a.cf &&
      (node.pnPurity = .pure || node.pnPurity = .maybePure) && !(p.fld a.cf).cfMeta.any isPureMeta) = true ↔
        p.Left l a := by
    have honly : ∀ node' ∈ lut.nodes, node'.pnField = a.cf → node' = node := by
      intro node' hn' hcf'
      obtain ⟨id, hf'⟩ := mem_nodes.1 hn'
      obtain ⟨b, hb, -, hbcf, rfl⟩ := (h.ok _ node' hf').entry
      obtain rfl := hp.fields b (hl.mem_iff.1 hb) a (hl.mem_iff.1 ha) (hbcf.trans hcf')
      exact Option.some.inj (hf'.symm.trans hf)
    have hstate : (node.pnPurity = .pure ∨ node.pnPurity = .maybePure) ↔
        ¬ p.IsImpure l a.c a.cf ∧ (p.declared a = .ok .pure ∨ p.declared a = .ok .maybePure) := by
      rw [hs]
      rcases hst with ⟨hi, hn, -⟩ | ⟨hi, hn⟩
      · simp [hn, hi]
      · simp [hn, hi]
    simp only [List.any_eq_true, Bool.and_eq_true, Bool.or_eq_true, decide_eq_true_eq, Bool.not_eq_true']
    constructor
    · rintro ⟨node', hn', ⟨hcf', hpur⟩, hm⟩
      obtain rfl := honly node' hn' hcf'
      obtain ⟨h1, h2⟩ := hstate.1 hpur
      exact ⟨h1, h2, hm⟩
    · rintro ⟨h1, h2, hm⟩
      exact ⟨node, mem_nodes.2 ⟨_, hf⟩, ⟨hcf, hstate.2 ⟨h1, h2⟩⟩, hm⟩
  unfold inferredMeta
  simp only [hiff]

theorem getPurity_marked (hp : p.WellFormed types) (hl : l.Perm (p.entries types)) (h : p.Done l lut) {a : Entry D}
    (ha : a ∈ l) [Decidable (p.Left l a)] :
    (p.marked lut).getPurity a.c a.cf = if p.Left l a then .ok .pure else p.getPurity a.c a.cf := by
  unfold getPurity marked
  simp only [inferredMeta_eq hp hl h ha]
  split_ifs with hleft
  · rfl
  · rfl

/-! ## What the marks say -/

/-- What is taken for pure was declared so, or was looked at and not found impure. -/
theorem not_impure_of_pureField (hp : p.WellFormed types) (hl : l.Perm (p.entries types)) (h : p.Done l lut)
    {a : Entry D} (ha : a ∈ l) (hpure : (p.marked lut).PureField a.c a.cf) (hne : p.declared a ≠ .ok .pure) :
    ¬ p.IsImpure l a.c a.cf := by
  classical
  obtain ⟨node, s, -, -, hs, hst⟩ := h.node_state (hp.closed hl) ha
  unfold PureField at hpure
  rw [getPurity_marked hp hl h ha] at hpure
  split_ifs at hpure with hleft
  · exact hleft.1
  · rcases hpure with hpure | hpure
    · exact absurd hpure hne
    · obtain rfl := Except.ok.inj (hs.symm.trans hpure)
      rcases hst with ⟨-, -, hst⟩ | ⟨hi, -⟩
      · exact absurd rfl hst
      · exact hi

/-- An effect that the search has passed is harmless, as long as the field is not found impure after all. -/
theorem Met.harmless (hp : p.WellFormed types) (hl : l.Perm (p.entries types)) (h : p.Done l lut) {a : Entry D}
    (ha : a ∈ l) (himp : ¬ p.IsImpure l a.c a.cf) {e : Texpr D} (he : (p.fld a.cf).cfExpr = some e) {x : Effect D}
    (hx : x ∈ effects e) (hm : p.Met lut a x) : (p.marked lut).Harmless a x := by
  classical
  have hcl := hp.closed hl
  -- a field that is called is pure in the end
  have hcall : ∀ {c cf}, p.verdict a.isCtor a.c x = .calls c cf → (p.marked lut).PureField c cf := by
    intro c cf hv
    obtain ⟨b, hb, rfl, rfl, -⟩ := hp.callee (hl.mem_iff.1 ha) he hx hv
    have hb := hl.mem_iff.2 hb
    unfold PureField
    rw [getPurity_marked hp hl h hb]
    split_ifs with hleft
    · exact .inl rfl
    rcases hm with hm | ⟨c, cf, hv', hm⟩
    · rw [hv] at hm
      cases hm
    obtain ⟨rfl, rfl⟩ : b.c = c ∧ b.cf = cf := by
      rw [hv] at hv'
      cases hv'
      exact ⟨rfl, rfl⟩
    rcases hm with hm | hm | ⟨node, hf, hd⟩
    · exact .inl hm
    · exact .inr hm
    · -- `a` would have been told
      refine absurd ?_ hleft
      obtain ⟨hc, hcf⟩ := h.ok.field hcl hb hf
      have hmaybe := ((h.ok _ node hf).users _ hd).1
      rw [hc, hcf] at hmaybe
      refine ⟨fun hi => himp ?_, .inr hmaybe, any_isPureMeta_of_maybe hmaybe⟩
      obtain ⟨node', hf', -, hset⟩ := h.settled _ ((h.isImpure_iff hcl hb).2 hi)
      obtain rfl := Option.some.inj (hf.symm.trans hf')
      rcases hset with hset | hset
      · rw [hc, hcf, hmaybe] at hset
        cases hset
      · exact (h.isImpure_iff hcl ha).1 (hset.1 _ hd)
  have hnot : p.verdict a.isCtor a.c x ≠ .harm ∧ ∀ err, p.verdict a.isCtor a.c x ≠ .wrong err := by
    rcases hm with hm | ⟨c, cf, hm, -⟩ <;> simp [hm]
  cases x with
  | writeLocal v =>
    cases hr : p.hasReferenceSemantics v.vType with
    | false => exact hr
    | true => exact absurd (by simp [verdict, hr]) hnot.1
  | writeOwn =>
    cases hk : a.isCtor with
    | true => exact hk
    | false => exact absurd (by simp [verdict, hk]) hnot.1
  | writeOther | throws | callOther => exact absurd rfl hnot.1
  | callStatic c cf => exact hcall rfl
  | construct c =>
    cases hk : (p.cls c).clConstructor with
    | none => exact absurd (by simp only [verdict, hk]) hnot.1
    | some cf => exact ⟨cf, hk, hcall (by simp only [verdict, hk])⟩
  | callSuper =>
    cases hs : (p.cls a.c).clSuper with
    | none => exact absurd (by simp only [verdict, hs]) hnot.1
    | some c =>
      cases hk : (p.cls c).clConstructor with
      | none => exact absurd (by simp only [verdict, hs, hk]) hnot.1
      | some cf => exact ⟨c, cf, hs, hk, hcall (by simp only [verdict, hs, hk])⟩
  | iterates => exact absurd hx (hp.remapped a (hl.mem_iff.1 ha) e he)
  | annotated m =>
    cases hs : getPurityFromMeta (D := D) [m] with
    | error err => exact absurd (by simp only [verdict, hs]) (hnot.2 err)
    | ok s =>
      refine ⟨s, hs, ?_⟩
      rintro rfl
      exact hnot.1 (by simp only [verdict, hs])

/-- What is taken for pure was declared so, or has a body that does nothing else. -/
theorem verified_of_pureField (hp : p.WellFormed types) (hl : l.Perm (p.entries types)) (h : p.Done l lut) {a : Entry D}
    (ha : a ∈ l) (hpure : (p.marked lut).PureField a.c a.cf) (hne : p.declared a ≠ .ok .pure) :
    (p.marked lut).Verified a := by
  have himp := not_impure_of_pureField hp hl h ha hpure hne
  rcases h.served a ha with hi | ⟨s, hs, -, htask⟩
  · exact absurd ((h.isImpure_iff (hp.closed hl) ha).1 hi) himp
  cases ht : p.task s a with
  | taint =>
    rw [ht] at htask
    exact htask.elim
  | pass =>
    obtain rfl := task_pass ht
    exact absurd hs hne
  | body e =>
    rw [ht] at htask
    have he := (task_body ht).1
    exact ⟨e, he, fun x hx => (htask x hx).harmless hp hl h ha himp he hx⟩

/-- What the marks of an inference mean, with the fields taken in any order. A field that is marked, and every field
that is called from there without a declaration in between, was declared pure or does nothing but what a pure field may
do. Another order that comes to an end leaves the same marks, and it does so if the `@:pure` in bodies have proper
values. -/
theorem infer_sound (hp : p.WellFormed types) (hl : l.Perm (p.entries types)) (h : p.inferEntries l = .ok lut) :
    (∀ a ∈ p.entries types, (p.marked lut).PureField a.c a.cf → ∀ b, Relation.ReflTransGen (p.Uses types) a b →
      (p.marked lut).PureField b.c b.cf ∧ (p.declared b = .ok .pure ∨ (p.marked lut).Verified b)) ∧
    (∀ l' lut', l'.Perm (p.entries types) → p.inferEntries l' = .ok lut' →
      ∀ a ∈ p.entries types, p.inferredMeta lut' a.cf = p.inferredMeta lut a.cf) ∧
    ((∀ a ∈ p.entries types, ∀ err, ¬ p.Does a (.wrong err)) →
      ∀ l', l'.Perm (p.entries types) → ∃ lut', p.inferEntries l' = .ok lut') := by
  classical
  have hdone : ∀ {l lut}, l.Perm (p.entries types) → p.inferEntries l = .ok lut → p.Done l lut := by
    intro l lut hl h
    have := inferEntries_spec (hp.closed hl)
    rw [h] at this
    exact this
  refine ⟨?_, ?_, fun hmetas l' hl' => inferEntries_ends hp hl (hdone hl h) hmetas hl'⟩
  · intro a ha hpure b hab
    have hd := hdone hl h
    suffices b ∈ p.entries types ∧ (p.marked lut).PureField b.c b.cf by
      refine ⟨this.2, ?_⟩
      by_cases hb : p.declared b = .ok .pure
      · exact .inl hb
      · exact .inr (verified_of_pureField hp hl hd (hl.mem_iff.2 this.1) this.2 hb)
    -- one call leads from a pure field to another
    induction hab with
    | refl => exact ⟨ha, hpure⟩
    | @tail b c _ hbc ih =>
      obtain ⟨hc, hne, e, he, x, hx, hcall⟩ := hbc
      refine ⟨hc, ?_⟩
      obtain ⟨e', he', hall⟩ := verified_of_pureField hp hl hd (hl.mem_iff.2 ih.1) ih.2 hne
      obtain rfl := Option.some.inj (he.symm.trans he')
      exact (hall x hx).calls hcall
  · intro l' lut' hl' h' a ha
    rw [inferredMeta_eq hp hl (hdone hl h) (hl.mem_iff.2 ha), inferredMeta_eq hp hl' (hdone hl' h') (hl'.mem_iff.2 ha)]
    have hsame : p.Left l' a ↔ p.Left l a := by
      have hperm := hl'.trans hl.symm
      have himp : p.IsImpure l' a.c a.cf ↔ p.IsImpure l a.c a.cf :=
        or_congr_right ⟨Tainted.mono hperm.subset, Tainted.mono hperm.symm.subset⟩
      unfold Left
      rw [himp]
    simp only [hsame]

end Marks

end Program

/-! ## A constructor -/

/-- `class Box { var x; static function make() return new Box(); function new() { this.x = 1; } }` -/
def boxDecls : Decls := { Cls := Unit, Fld := Fin 3, EnumFld := Unit, ModuleType := Unit, Typ := Unit }

instance : DecidableEq boxDecls.Fld := inferInstanceAs (DecidableEq (Fin 3))

def box : Program boxDecls where
  cls _ :=
    { clPath := ([], "Box"), clMeta := [], clSuper := none, clFields := [(0 : Fin 3)], clOrderedFields := [(0 : Fin 3)],
      clOrderedStatics := [(1 : Fin 3)], clConstructor := some (2 : Fin 3) }
  fld
    | (0 : Fin 3) => { cfName := "x", cfMeta := [], cfKind := .var, cfFinal := false, cfExtern := false, cfExpr := none }
    | (1 : Fin 3) =>
      { cfName := "make", cfMeta := [], cfKind := .method .methNormal, cfFinal := false, cfExtern := false,
        cfExpr := some (.tFunction [] (.tBlock [.tReturn (some (.tNew () []))])) }
    | (2 : Fin 3) =>
      { cfName := "new", cfMeta := [], cfKind := .method .methNormal, cfFinal := false, cfExtern := false,
        cfExpr := some (.tFunction [] (.tBlock
          [.tBinop .opAssign (.tField (.tConst .tThis) (.fInstance () (0 : Fin 3))) (.tConst (.tInt 1))])) }
  superDepth _ := 0
  superDepth_lt := fun _ _ h => nomatch h
  hasReferenceSemantics _ := false

/-- A constructor is marked as pure, and writes to a field. -/
theorem marked_constructor_writes :
    ∃ lut, box.infer [()] = .ok lut ∧ (box.marked lut).getPurity () (2 : Fin 3) = .ok .pure ∧
      ∃ e, (box.fld (2 : Fin 3)).cfExpr = some e ∧ .writeOwn ∈ effects e :=
  ⟨_, rfl, rfl, _, rfl, .head _⟩

theorem box_entries : box.entries [()] =
    [⟨false, false, (), (0 : Fin 3)⟩, ⟨false, true, (), (1 : Fin 3)⟩, ⟨true, false, (), (2 : Fin 3)⟩] := rfl

theorem box_cases {a : Entry boxDecls} (ha : a ∈ box.entries [()]) :
    a = ⟨false, false, (), (0 : Fin 3)⟩ ∨ a = ⟨false, true, (), (1 : Fin 3)⟩ ∨ a = ⟨true, false, (), (2 : Fin 3)⟩ := by
  rw [box_entries] at ha
  simpa only [List.mem_cons, List.not_mem_nil, or_false] using ha

theorem box_effects {a : Entry boxDecls} (ha : a ∈ box.entries [()]) {e : Texpr boxDecls}
    (he : (box.fld a.cf).cfExpr = some e) {x : Effect boxDecls} (hx : x ∈ effects e) : x = .construct () ∨ x = .writeOwn := by
  rcases box_cases ha with rfl | rfl | rfl
  · cases he
  · cases he
    exact .inl (List.mem_singleton.1 hx)
  · cases he
    exact .inr (List.mem_singleton.1 hx)

theorem box_wellFormed : box.WellFormed [()] := by
  refine ⟨fun _ _ _ h => (nomatch h), fun _ _ _ h => h, ?_, ?_, fun a ha e he c cf hx => ?_, fun _ _ _ _ _ _ => ?_,
    fun a ha e he x hx c cf hc hs => ?_, fun a ha e he hx => ?_⟩
  · intro a ha b hb
    rcases box_cases ha with rfl | rfl | rfl <;> rcases box_cases hb with rfl | rfl | rfl <;>
      first | exact fun _ => rfl | exact fun h => absurd h (by decide)
  · intro a ha b hb
    rcases box_cases ha with rfl | rfl | rfl <;> rcases box_cases hb with rfl | rfl | rfl <;>
      first | exact fun _ => rfl | exact fun h => absurd h (by decide)
  · rcases box_effects ha he hx with h | h <;> cases h
  · exact List.mem_singleton.2 rfl
  · rcases box_effects ha he hx with rfl | rfl
    · cases hc
      exact ⟨by decide, by decide⟩
    · simp only [Program.Calls, Program.verdict] at hc
      split_ifs at hc
  · rcases box_effects ha he hx with h | h <;> cases h

/-- With the fields from the last to the first: `make` is marked, and so is the constructor that it calls. -/
theorem infer_sound_box : ∃ lut, box.inferEntries (box.entries [()]).reverse = .ok lut ∧
    (box.marked lut).PureField () (1 : Fin 3) ∧ (box.marked lut).PureField () (2 : Fin 3) :=
  ⟨_, rfl, .inl rfl,
    ((Program.infer_sound box_wellFormed (List.reverse_perm _) rfl).1 ⟨false, true, (), (1 : Fin 3)⟩ (.tail _ (.head _))
      (.inl rfl) ⟨true, false, (), (2 : Fin 3)⟩
      (.single ⟨.tail _ (.tail _ (.head _)), fun h => (nomatch h), _, rfl, .construct (), .head _, rfl⟩)).1⟩

end EvilHaxe.Purity
