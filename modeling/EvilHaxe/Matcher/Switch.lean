/-
`compile_switch`: the test for `null`, the switch and the default rows. The first of them that is there
evaluates the subject.
-/
import EvilHaxe.Matcher.Branches

namespace EvilHaxe.Matcher

variable {V : Type} {R : Runtime V} {Ty : Type} {T : PatternTyping R Ty}

section

variable {ctx : MatcherContext} {n : Nat} {t : Ty} {ts : List Ty} {subject : TExpr} {subjects : List TExpr} {rows : List Row}
  {L : Nat → Prop} {A : Nat → TExpr → Prop} {d d' d'' : Deferred}
  {compile : Nat → Deferred → List TExpr → List Row → Compiled}
  {P : Nat → Deferred → List TExpr → List Row → Env V → Prop}

/-! ## The test for `null` -/

theorem nullPattern_isSome (case : Case) {rest : List Pattern} : ∀ (pat : Pattern) (bindings : List (Nat × TExpr)),
    headCon pat = some (.conConst .tNull) → (nullPattern subject case bindings pat rest).isSome
  | .patConstructor con pats, bindings, h => by
    obtain rfl := Option.some.inj h
    simp [nullPattern]
  | .patBind _ pat, _, h => nullPattern_isSome case pat _ h

theorem nullRows_eq_nil : rows.filterMap (nullRow subject) = [] ↔ ¬ HasCon (.conConst .tNull) rows := by
  rw [List.filterMap_eq_nil_iff]
  constructor
  · rintro h ⟨r, hr, pat, hpat, hc⟩
    have hr := h r hr
    cases hp : r.patterns with
    | nil => rw [hp] at hpat; cases hpat
    | cons q rest =>
      obtain rfl : q = pat := by simpa [hp] using hpat
      rw [nullRow_cons hp] at hr
      have hsome : (nullPattern subject r.case r.bindings q rest).isSome := nullPattern_isSome r.case q r.bindings hc
      rw [hr] at hsome
      cases hsome
  · intro h r hr
    refine nullRow_eq_none (Bool.eq_false_iff.2 fun hn => h ⟨r, hr, ?_⟩)
    cases hp : r.patterns.head? with
    | none => simp [isNullRow, hp] at hn
    | some pat => exact ⟨pat, rfl, by simpa [isNullRow, hp] using hn⟩

theorem passedOver_iff : passedOver ctx subject rows = true ↔
    ctx.isExplicitNull subject = false ∧ ∀ c, ¬ HasCon c rows := by
  simp only [passedOver, Bool.and_eq_true, Bool.not_eq_true', List.all_eq_true, Option.isNone_iff_eq_none,
    Option.bind_eq_none_iff]
  refine and_congr_right fun _ => ⟨fun h c ⟨r, hr, pat, hpat, hc⟩ => ?_, fun h r hr pat hpat => ?_⟩
  · rw [h r hr pat hpat] at hc
    cases hc
  · cases hc : headCon pat with
    | none => rfl
    | some c => exact absurd ⟨r, hr, pat, hpat, hc⟩ (h c)

/-- The subject in the default rows is used for the first time where nothing else uses it. -/
theorem subjectUses_default {cases : List SwitchCase}
    (hcases : cases = [] ↔ ∀ c, c ≠ .conConst .tNull → ¬ HasCon c rows) :
    (subjectUses (ctx.isExplicitNull subject) (rows.filterMap (nullRow subject)) cases (getScopedExpr d subject)
      subject).2.2 = defaultSubject ctx d subject rows := by
  unfold defaultSubject
  by_cases hpassed : passedOver ctx subject rows = true
  · obtain ⟨hexplicit, hno⟩ := passedOver_iff.1 hpassed
    rw [if_pos hpassed, nullRows_eq_nil.2 (hno _), hcases.2 fun c _ => hno c, hexplicit]
    rfl
  · rw [if_neg hpassed]
    cases hnull : rows.filterMap (nullRow subject) with
    | cons r null => rfl
    | nil =>
      cases hexplicit : ctx.isExplicitNull subject with
      | true => rfl
      | false =>
        cases hc : cases with
        | cons sc cases => rfl
        | nil =>
          refine absurd (passedOver_iff.2 ⟨hexplicit, fun c => ?_⟩) hpassed
          by_cases hcn : c = .conConst .tNull
          · rw [hcn]
            exact nullRows_eq_nil.1 hnull
          · exact hcases.1 hc c hcn

/-- The tree of `compile_switch`, from the trees of its branches, of the default rows and of the rows for `null`. -/
def switchTree (explicitNull : Bool) (switchSubject subject : TExpr) (cases : List SwitchCase) (null : List Row)
    (sd sn : Dt) : Dt :=
  let uses := subjectUses explicitNull null cases switchSubject subject
  let dt := if cases.isEmpty then sd else .switch uses.2.1 cases sd
  match null with
  | [] => if explicitNull then .guardNull uses.1 sd dt else dt
  | _ :: _ => .guardNull uses.1 sn dt

/-- Nothing is evaluated where there is nothing to test. -/
theorem switchTree_passed {switchSubject : TExpr} {sd sn : Dt} : switchTree false switchSubject subject [] [] sd sn = sd :=
  rfl

section

variable {ρ : Env V} {switchSubject : TExpr} {explicitNull : Bool} {cases : List SwitchCase} {null : List Row}
  {sd sn : Dt}

/-- Elsewhere the first test evaluates the subject, for all that comes after it. -/
theorem evalDt_switchTree_other (hp : Plain subject) (hused : explicitNull = true ∨ null ≠ [] ∨ cases ≠ [])
    (hs : evalExpr R (ρ.run R switchSubject) subject = evalExpr R ρ switchSubject)
    (h : R.isNull (evalExpr R ρ switchSubject) = false) :
    evalDt R ρ (switchTree explicitNull switchSubject subject cases null sd sn) =
      (evalCases R (ρ.run R switchSubject) (evalExpr R ρ switchSubject) cases).getD
        (evalDt R (ρ.run R switchSubject) sd) := by
  have hdt : ∀ ρ' : Env V, evalDt R ρ' (if cases.isEmpty then sd else .switch subject cases sd) =
      (evalCases R ρ' (evalExpr R ρ' subject) cases).getD (evalDt R ρ' sd) := by
    intro ρ'
    cases cases with
    | nil => rfl
    | cons sc cases =>
      show evalDt R ρ' (.switch subject (sc :: cases) sd) = _
      rw [evalDt, run_plain hp]
  unfold switchTree
  cases null with
  | cons r null =>
    simp only [subjectUses, evalDt, h, Bool.false_eq_true, if_false]
    rw [hdt, hs]
  | nil =>
    cases explicitNull with
    | true =>
      simp only [subjectUses, evalDt, h, Bool.false_eq_true, if_false, if_true]
      rw [hdt, hs]
    | false =>
      cases cases with
      | nil => simp at hused
      | cons sc cases => simp only [subjectUses, evalDt, List.isEmpty_cons, Bool.false_eq_true, if_false]

/-- Without rows for `null` their tree is the default tree. -/
theorem evalDt_switchTree_null (hused : explicitNull = true ∨ null ≠ [] ∨ cases ≠ [])
    (h : R.isNull (evalExpr R ρ switchSubject) = true)
    (hcases : evalCases R (ρ.run R switchSubject) (evalExpr R ρ switchSubject) cases = none)
    (hempty : null = [] → sn = sd) :
    evalDt R ρ (switchTree explicitNull switchSubject subject cases null sd sn) =
      evalDt R (ρ.run R switchSubject) sn := by
  unfold switchTree
  cases null with
  | cons r null => simp only [subjectUses, evalDt, h, if_true]
  | nil =>
    rw [hempty rfl]
    cases explicitNull with
    | true => simp only [subjectUses, evalDt, h, if_true]
    | false =>
      cases cases with
      | nil => simp at hused
      | cons sc cases =>
        simp only [subjectUses, evalDt, List.isEmpty_cons, Bool.false_eq_true, if_false, hcases, Option.getD_none]

end

/-! ## `compile_switch` -/

/-- What `compile_switch` makes of its matrix: the branches, the default tree and the tree for `null`, each
compiled with the locals that are then still to be assigned. -/
structure SwitchParts (T : PatternTyping R Ty) (ctx : MatcherContext)
    (P : Nat → Deferred → List TExpr → List Row → Env V → Prop) (n : Nat) (d : Deferred) (t : Ty) (ts : List Ty)
    (subject : TExpr) (subjects : List TExpr) (rows : List Row) (sigma : List (Con × Bool)) (cases : List SwitchCase)
    (sd sn : Dt) (d2 d3 d4 : Deferred) : Prop where
  typed : ∀ p ∈ sigma, T.con t p.1 ∧ p.1 ≠ .conConst .tNull
  column : ∀ c, (∃ p ∈ sigma, p.1 = c) ↔ c ≠ .conConst .tNull ∧ HasCon c rows
  sub2 : Deferred.Sub d2 (markUsed subject d)
  sub3 : Deferred.Sub d3 d2
  sub4 : Deferred.Sub d4 d3
  branches : List.Forall₂ (fun p sc => SwitchCase.Is
    (BranchCorrect T ctx P n (markUsed subject d) d2 t ts subject subjects rows p.1) p.1 sc) sigma cases
  dflt : ∀ L A, InScope T ctx n L A d2 ts subjects (default (defaultSubject ctx d subject rows) rows) →
    Correct T (P n d2 subjects (default (defaultSubject ctx d subject rows) rows)) ts subjects
      (default (defaultSubject ctx d subject rows) rows) L A d2 d3 sd
  null : (rows.filterMap (nullRow subject) = [] ∧ sn = sd ∧ d4 = d3) ∨
    (rows.filterMap (nullRow subject) ≠ [] ∧ ∀ L A, InScope T ctx n L A d3 ts subjects
        (rows.filterMap (nullRow subject) ++ default (defaultSubject ctx d subject rows) rows) →
      Correct T (P n d3 subjects (rows.filterMap (nullRow subject) ++ default (defaultSubject ctx d subject rows) rows))
        ts subjects (rows.filterMap (nullRow subject) ++ default (defaultSubject ctx d subject rows) rows) L A d3 d4 sn)

/-- `compile_switch` succeeds on a prepared matrix without extractors. -/
theorem compileSwitch_parts (d : Deferred)
    (hrows : ∀ r ∈ rows, FlatOk T (fun _ => True) (t :: ts) r) (hex : NoExtractor rows)
    (hl : subjects.length = ts.length) (hsub : subject.Below n) (hsubs : ∀ e ∈ subjects, e.Below n)
    (hrec : CorrectBelow T ctx compile P (fuelNeed (subjects.length + 1) (rowsWeight rows))) :
    ∃ sigma cases sd sn d2 d3 d4, compileSwitch ctx compile n d (subject :: subjects) rows =
        .ok (switchTree (ctx.isExplicitNull subject) (getScopedExpr d subject) subject cases
          (rows.filterMap (nullRow subject)) sd sn, resetSubject d subject d4) ∧
      SwitchParts T ctx P n d t ts subject subjects rows sigma cases sd sn d2 d3 d4 := by
  obtain ⟨sigma, hsigma, htyped, hmem⟩ := getColumnSigma_spec subject rows [] [] hrows hex nofun
  rw [List.nil_append] at hsigma
  have horder : ∀ p, p ∈ ctx.order sigma ↔ p ∈ sigma := fun p => (ctx.order_perm sigma).mem_iff
  have hcolumn : ∀ c, (∃ p ∈ ctx.order sigma, p.1 = c) ↔ c ≠ .conConst .tNull ∧ HasCon c rows := fun c => by
    simpa [horder] using hmem c
  have htyped : ∀ p ∈ ctx.order sigma, T.con t p.1 ∧ p.1 ≠ .conConst .tNull := fun p hp => htyped p ((horder p).1 hp)
  obtain ⟨cases, d2, hcases, hd2, hall⟩ := compileBranches_correct hrows hex hl hsub hsubs hrec (ctx.order sigma)
    (markUsed subject d) (Deferred.Sub.refl _) fun p hp =>
      ⟨(htyped p hp).1, (htyped p hp).2, ((hcolumn p.1).1 ⟨p, hp, rfl⟩).2⟩
  -- the subject in the default rows
  have huses : (subjectUses (ctx.isExplicitNull subject) (rows.filterMap (nullRow subject)) cases
      (getScopedExpr d subject) subject).2.2 = defaultSubject ctx d subject rows := by
    refine subjectUses_default ?_
    rw [← List.length_eq_zero_iff, ← hall.length_eq, List.length_eq_zero_iff]
    constructor
    · intro hnil c hc hcon
      obtain ⟨p, hp, -⟩ := (hcolumn c).2 ⟨hc, hcon⟩
      rw [hnil] at hp
      cases hp
    · intro h
      refine List.eq_nil_iff_forall_not_mem.2 fun p hp => h p.1 (htyped p hp).2 ?_
      exact ((hcolumn p.1).1 ⟨p, hp, rfl⟩).2
  have hdflt : ∀ r ∈ default (defaultSubject ctx d subject rows) rows, RowOk T (fun _ => True) ts r :=
    default_ok hrows trivial
  obtain ⟨sd, d3, hsd, hd3, hsdc⟩ := hrec n d2 ts subjects (default (defaultSubject ctx d subject rows) rows)
    ⟨hl, hsubs, hdflt⟩ (fuelNeed_column (rowsWeight_default _ rows).1)
  by_cases hnull : rows.filterMap (nullRow subject) = []
  · refine ⟨ctx.order sigma, cases, sd, sd, d2, d3, d3, ?_,
      ⟨htyped, hcolumn, hd2, hd3, Deferred.Sub.refl d3, hall, hsdc, .inl ⟨hnull, rfl, rfl⟩⟩⟩
    unfold compileSwitch
    show Except.bind (getColumnSigma subject rows ([], [])) _ = _
    rw [hsigma]
    show Except.bind (compileBranches compile n subject subjects rows (markUsed subject d) (ctx.order sigma)) _ = _
    rw [hcases]
    show Except.bind (compile n d2 subjects (default (subjectUses _ _ cases _ _).2.2 rows)) _ = _
    rw [huses, hsd, hnull]
    rfl
  · obtain ⟨r, null, hcons⟩ := List.exists_cons_of_ne_nil hnull
    have hsubject : defaultSubject ctx d subject rows = subject := by
      rw [hcons] at huses
      exact huses.symm
    have hnullRows : ∀ r ∈ rows.filterMap (nullRow subject) ++ default subject rows,
        RowOk T (fun _ => True) ts r := by
      intro r hr
      rcases List.mem_append.1 hr with hr | hr
      · exact nullRow_ok hrows trivial r hr
      · exact default_ok hrows trivial r hr
    obtain ⟨sn, d4, hsn, hd4, hsnc⟩ := hrec n d3 ts subjects _ ⟨hl, hsubs, hnullRows⟩
      (fuelNeed_column (rowsWeight_null subject rows))
    refine ⟨ctx.order sigma, cases, sd, sn, d2, d3, d4, ?_,
      ⟨htyped, hcolumn, hd2, hd3, hd4, hall, hsdc, .inr ⟨hnull, by rwa [hsubject]⟩⟩⟩
    unfold compileSwitch
    show Except.bind (getColumnSigma subject rows ([], [])) _ = _
    rw [hsigma]
    show Except.bind (compileBranches compile n subject subjects rows (markUsed subject d) (ctx.order sigma)) _ = _
    rw [hcases]
    rw [hsubject] at hsd
    rw [hcons] at hsn ⊢
    show Except.bind (compile n d2 subjects (default subject rows)) _ = _
    rw [hsd]
    show Except.bind (compile n d3 subjects (r :: null ++ default subject rows)) _ = _
    rw [hsn]
    rfl

/-! ## Its correctness -/

theorem getScopedExpr_eq (h : ∀ v e1, subject = .tLocal v → d.lookup v ≠ some e1) : getScopedExpr d subject = subject := by
  cases subject with
  | tLocal v =>
    cases hv : d.lookup v with
    | none => simp [getScopedExpr, hv]
    | some e1 => exact absurd hv (h v e1 rfl)
  | _ => rfl

theorem gained_use (v : Nat) (h : gained L (markUsed subject d) d' v) : gained L d (resetSubject d subject d') v := by
  rcases h with h | ⟨h1, h2⟩
  · exact .inl h
  · have hs : subject ≠ .tLocal v := by
      rintro rfl
      rw [lookup_markUsed_self] at h1
      cases h1
    rw [lookup_markUsed hs] at h1
    exact .inr ⟨h1, (lookup_reset hs).trans h2⟩

/-- Once the subject is evaluated its local holds its value. -/
theorem Holds.use {ρ ρ' : Env V} (h : Holds R (gained L d (resetSubject d subject d')) A ρ ρ') (hscope : ScopeOk T n L A d)
    (hs : SubjectOk L d subject) (hp : Plain subject) :
    Holds R (gained (used L subject) (markUsed subject d) d') A (ρ.run R (getScopedExpr d subject)) ρ' := by
  by_cases hd : ∃ v e1, subject = .tLocal v ∧ d.lookup v = some e1
  · obtain ⟨v, e1, rfl, hv⟩ := hd
    have he : getScopedExpr d (.tLocal v) = .tAssign v e1 := by simp [getScopedExpr, hv]
    obtain ⟨hA, hw⟩ := hscope.entries v e1 hv
    rw [he]
    refine (h.assign hA (hw.mono fun _ hx => .inl hx)).mono ?_
    rintro w ((hw | hw) | hw)
    · exact .inl (.inl hw)
    · exact .inr (TExpr.tLocal.inj hw).symm
    · exact .inl (gained_use w (.inr hw))
  · have hno : ∀ v e1, subject = .tLocal v → d.lookup v ≠ some e1 := fun v e1 he hv => hd ⟨v, e1, he, hv⟩
    have hwithin : subject.Within L := by
      rcases hs with hs | ⟨v, e1, he, hv⟩
      · exact hs
      · exact absurd hv (hno v e1 he)
    rw [getScopedExpr_eq hno, run_plain hp]
    refine h.mono ?_
    rintro v ((hv | rfl) | hv)
    · exact .inl hv
    · exact .inl hwithin
    · exact gained_use v (.inr hv)

theorem BranchScope.dflt (h : BranchScope T ctx n L A d t ts subject subjects rows) :
    InScope T ctx n L A d ts subjects (default subject rows) := by
  refine ⟨h.scope, fun r hr => ?_, default_ok h.rows_ok h.ready⟩
  obtain ⟨q, hq, hpatterns, hfits⟩ := default_columns h.rows_ok hr
  exact .inr ⟨hpatterns ▸ hfits, hpatterns ▸ h.subjects_ok q hq⟩

theorem BranchScope.null (h : BranchScope T ctx n L A d t ts subject subjects rows) :
    InScope T ctx n L A d ts subjects (rows.filterMap (nullRow subject) ++ default subject rows) := by
  refine ⟨h.scope, fun r hr => ?_, fun r hr => ?_⟩
  · rcases List.mem_append.1 hr with hr | hr
    · obtain ⟨q, hq, hpatterns, hfits⟩ := nullRow_columns h.rows_ok hr
      exact .inr ⟨hpatterns ▸ hfits, hpatterns ▸ h.subjects_ok q hq⟩
    · exact h.dflt.subjects_ok r hr
  · rcases List.mem_append.1 hr with hr | hr
    · exact nullRow_ok h.rows_ok h.ready r hr
    · exact default_ok h.rows_ok h.ready r hr

/-- What `compile_switch` reaches: the first of its rows, with those of `null` first when the value is `null`. -/
structure SwitchCorrect (T : PatternTyping R Ty) (subject : TExpr) (subjects : List TExpr) (rows : List Row) (dt : Dt)
    (ρ ρ' : Env V) : Prop where
  null : R.isNull (evalExpr R ρ' subject) = true →
    RowSelects R T.nulls ρ' ((subject :: subjects).map (evalExpr R ρ')) (nullFirst rows) (evalDt R ρ dt)
  other : R.isNull (evalExpr R ρ' subject) = false →
    RowSelects R T.nulls ρ' ((subject :: subjects).map (evalExpr R ρ')) rows (evalDt R ρ dt)

/-- A value that is not `null` and has no constructor of the table has none of the column. -/
theorem column_holds (hrows : ∀ r ∈ rows, FlatOk T (fun _ => True) (t :: ts) r) {sigma : List (Con × Bool)}
    (hcolumn : ∀ c, (∃ p ∈ sigma, p.1 = c) ↔ c ≠ .conConst .tNull ∧ HasCon c rows) {v : V} (hv : T.val t v)
    (hnull : R.isNull v = false) (hno : ∀ p ∈ sigma, R.holds p.1 v = false) :
    ∀ c, HasCon c rows → R.holds c v = false := by
  rintro c ⟨r, hr, pat, hpat, hc⟩
  by_cases hcn : c = .conConst .tNull
  · obtain ⟨q, rest, hp, ht, -⟩ := (hrows r hr).uncons
    obtain rfl : q = pat := by simpa [hp] using hpat
    rw [hcn, T.null_test (fits_null ht (hcn ▸ hc)) hv, hnull]
  · obtain ⟨p, hp, rfl⟩ := (hcolumn c).2 ⟨hcn, r, hr, pat, hpat, hc⟩
    exact hno p hp

section

variable {sigma : List (Con × Bool)} {cases : List SwitchCase} {sd sn : Dt} {d2 d3 d4 : Deferred}
  {ρ ρ' : Env V}

theorem SwitchParts.used_correct
    (h : SwitchParts T ctx P n d t ts subject subjects rows sigma cases sd sn d2 d3 d4)
    (hrows : ∀ r ∈ rows, FlatOk T (fun _ => True) (t :: ts) r) (hex : NoExtractor rows)
    (hl : subjects.length = ts.length) (hsub : subject.Below n)
    (hin : InScope T ctx n L A d (t :: ts) (subject :: subjects) rows) (hs : SubjectOk L d subject)
    (hpassed : ¬ passedOver ctx subject rows = true)
    (hholds : Holds R (gained L d (resetSubject d subject d4)) A ρ ρ')
    (hval : List.Forall₂ T.val (t :: ts) ((subject :: subjects).map (evalExpr R ρ')))
    (hbelow : T.nulls ∨ T.extractors → BelowSwitch R ctx P n d subject subjects rows ρ') :
    SwitchCorrect T subject subjects rows (switchTree (ctx.isExplicitNull subject) (getScopedExpr d subject) subject cases
      (rows.filterMap (nullRow subject)) sd sn) ρ ρ' := by
  have hsubject : defaultSubject ctx d subject rows = subject := if_neg hpassed
  have hdflt := h.dflt
  have hnullrows := h.null
  rw [hsubject] at hdflt hnullrows
  have hused : ctx.isExplicitNull subject = true ∨ rows.filterMap (nullRow subject) ≠ [] ∨ cases ≠ [] := by
    by_contra hno
    simp only [not_or, not_not, Bool.not_eq_true] at hno
    obtain ⟨hexplicit, hnil, rfl⟩ := hno
    refine hpassed (passedOver_iff.2 ⟨hexplicit, fun c hc => ?_⟩)
    by_cases hcn : c = .conConst .tNull
    · exact nullRows_eq_nil.1 hnil (hcn ▸ hc)
    · obtain ⟨p, hp, -⟩ := (h.column c).2 ⟨hcn, hc⟩
      rw [List.length_eq_zero_iff.1 (h.branches.length_eq)] at hp
      cases hp
  -- the subject is evaluated
  have hscope := hin.use hrows hsub hs
  have huse := hholds.use hin.scope hs hsub.plain
  have hready := ready_getScopedExpr hin.scope (Deferred.Sub.refl d) hs hsub.plain
  have hsw : evalExpr R ρ (getScopedExpr d subject) = evalExpr R ρ' subject :=
    (hholds.eval (hready.1.mono fun v hv => .inl (gained_self v hv))).trans
      (eval_getScopedExpr (hholds.deferred hin.scope (Deferred.Sub.refl d)) subject)
  have hagain : evalExpr R (ρ.run R (getScopedExpr d subject)) subject = evalExpr R ρ' subject :=
    huse.eval (hscope.subject_ok.mono fun _ hv => .inl hv)
  have hbranch := evalCases_spec (R := R) (ρ := ρ.run R (getScopedExpr d subject)) (v := evalExpr R ρ' subject) h.branches
  have hlen : (subjects.map (evalExpr R ρ')).length = ts.length := by rw [List.length_map, hl]
  obtain ⟨hv, hvs⟩ := List.forall₂_cons.1 hval
  have hsub3 := h.sub3.trans h.sub2
  constructor
  · intro hnull
    -- no constructor holds, and the rows for `null` are tried
    have hnone : evalCases R (ρ.run R (getScopedExpr d subject)) (evalExpr R ρ' subject) cases = none := by
      rcases hbranch with ⟨p, hp, hold, -⟩ | ⟨-, he⟩
      · rw [T.null (h.typed p hp).1 hv hnull] at hold
        cases hold
      · exact he
    rw [evalDt_switchTree_null hused (by rwa [hsw]) (by rwa [hsw]) fun hnil => by
      rcases h.null with ⟨-, hsn, -⟩ | ⟨hne, -⟩
      · exact hsn
      · exact absurd hnil hne]
    refine null_selects hrows hex trivial hlen hv hnull ?_
    have hP := fun hn => (hbelow hn).null hnull
    rw [hsubject] at hP
    rcases hnullrows with ⟨hnil, rfl, rfl⟩ | ⟨-, hcorrect⟩
    · rw [hnil, List.nil_append] at hP ⊢
      exact hdflt _ A (hscope.gain h.sub2).dflt _ ρ' (huse.mono (gained_trans h.sub2 h.sub3)) hvs
        fun hn => hP hn d2 h.sub2
    · exact hcorrect _ A (hscope.gain hsub3).null _ ρ' (huse.mono (gained_trans hsub3 h.sub4)) hvs
        fun hn => hP hn d3 hsub3
  · intro hnull
    rw [evalDt_switchTree_other hsub.plain hused (hagain.trans hsw.symm) (by rwa [hsw]), hsw]
    rcases hbranch with ⟨p, hp, hold, bt, hb, he⟩ | ⟨hno, he⟩
    · have hcon : HasCon p.1 rows := ((h.column p.1).1 ⟨p, hp, rfl⟩).2
      rw [he]
      exact hb.mono (h.sub4.trans h.sub3) _ A hscope _ ρ' huse hval hold
        fun hn => (hbelow hn).branch hnull p.1 hcon hold
    · have hno := column_holds hrows h.column hv hnull hno
      have hP := fun hn => (hbelow hn).dflt hnull hno d2 h.sub2
      rw [hsubject] at hP
      rw [he]
      refine default_selects hrows hex trivial hlen (fun r hr pat hpat c hc => hno c ⟨r, hr, pat, hpat, hc⟩) ?_
      exact hdflt _ A (hscope.gain h.sub2).dflt _ ρ'
        (huse.mono fun v hv => gained_mono h.sub4 v (gained_trans h.sub2 h.sub3 v hv)) hvs hP

/-- Rows with `_` in the column bind nothing there. -/
theorem default_any {s : TExpr} (s' : TExpr) (h : ∀ r ∈ rows, ∃ pat ∈ r.patterns.head?, pat = .patAny) :
    default s rows = default s' rows := by
  refine List.filterMap_congr fun r hr => ?_
  obtain ⟨pat, hpat, rfl⟩ := h r hr
  unfold defaultRow
  cases hp : r.patterns with
  | nil => rfl
  | cons q rest =>
    obtain rfl : q = .patAny := by simpa [hp] using hpat
    rfl

/-- A subject that is passed over is still to be assigned, but is not looked at again. -/
theorem passed_inScope (hrows : ∀ r ∈ rows, FlatOk T (fun _ => True) (t :: ts) r) (hsub : subject.Below n)
    (hin : InScope T ctx n L A d (t :: ts) (subject :: subjects) rows) (hexplicit : ctx.isExplicitNull subject = false)
    (hkept : getScopedExpr d subject ≠ subject →
      ∀ r ∈ rows, ∀ p ∈ subjects.zip r.patterns.tail, p.1 = subject → p.2 = .patAny) :
    InScope T ctx n L A (markUsed subject d) ts subjects (default (getScopedExpr d subject) rows) := by
  have hcolumns := hin.columns hrows
  refine ⟨⟨hin.scope.below, hin.scope.known, fun v e he => hin.scope.entries v e (markUsed_sub subject d v e he),
    fun hne v => (markUsed_sub subject d).none (hin.scope.none hne v)⟩, fun r hr => ?_, ?_⟩
  · obtain ⟨q, hq, hpatterns, hfits⟩ := default_columns (hin.flat hrows) hr
    obtain ⟨-, -, -, hrest⟩ := hcolumns q hq
    refine .inr ⟨hpatterns ▸ hfits, fun p hp => ?_⟩
    rw [hpatterns] at hp
    rcases hrest p hp with (hw | ⟨v, e1, he, hv⟩) | hany
    · exact .inl (.inl hw)
    · by_cases hs : subject = .tLocal v
      · have hsubject : p.1 = subject := he.trans hs.symm
        refine .inr ⟨hkept ?_ q hq p hp hsubject, hsubject ▸ hexplicit⟩
        rw [hs]
        simp [getScopedExpr, hv]
      · exact .inl (.inr ⟨v, e1, he, by rwa [lookup_markUsed hs]⟩)
    · exact .inr hany
  · by_cases hs : SubjectOk L d subject
    · exact default_ok (hin.flat hrows)
        ((ready_getScopedExpr hin.scope (Deferred.Sub.refl d) hs hsub.plain).mono gained_self)
    · have hany : ∀ r ∈ rows, ∃ pat ∈ r.patterns.head?, pat = .patAny := by
        intro r hr
        obtain ⟨pat, hpat, hfirst, -⟩ := hcolumns r hr
        exact ⟨pat, hpat, (hfirst.resolve_left hs).1⟩
      rw [default_any (.tConst .tNull) hany]
      exact default_ok (hin.flat hrows) ⟨trivial, by rintro _ _ ⟨⟩⟩

theorem SwitchParts.passed_correct
    (h : SwitchParts T ctx P n d t ts subject subjects rows sigma cases sd sn d2 d3 d4)
    (hrows : ∀ r ∈ rows, FlatOk T (fun _ => True) (t :: ts) r) (hex : NoExtractor rows)
    (hl : subjects.length = ts.length) (hsub : subject.Below n)
    (hin : InScope T ctx n L A d (t :: ts) (subject :: subjects) rows) (hpassed : passedOver ctx subject rows = true)
    (hholds : Holds R (gained L d (resetSubject d subject d4)) A ρ ρ')
    (hval : List.Forall₂ T.val (t :: ts) ((subject :: subjects).map (evalExpr R ρ')))
    (hbelow : T.nulls ∨ T.extractors → BelowSwitch R ctx P n d subject subjects rows ρ') :
    SwitchCorrect T subject subjects rows (switchTree (ctx.isExplicitNull subject) (getScopedExpr d subject) subject cases
      (rows.filterMap (nullRow subject)) sd sn) ρ ρ' := by
  obtain ⟨hexplicit, hno⟩ := passedOver_iff.1 hpassed
  have hsubject : defaultSubject ctx d subject rows = getScopedExpr d subject := if_pos hpassed
  have hnil : rows.filterMap (nullRow subject) = [] := nullRows_eq_nil.2 (hno _)
  have hcases : cases = [] := by
    rw [← List.length_eq_zero_iff, ← h.branches.length_eq, List.length_eq_zero_iff]
    exact List.eq_nil_iff_forall_not_mem.2 fun p hp => hno p.1 ((h.column p.1).1 ⟨p, hp, rfl⟩).2
  have hd4 : d4 = d3 := by
    rcases h.null with ⟨-, -, hd⟩ | ⟨hne, -⟩
    · exact hd
    · exact absurd hnil hne
  have hkept : getScopedExpr d subject ≠ subject →
      ∀ r ∈ rows, ∀ p ∈ subjects.zip r.patterns.tail, p.1 = subject → p.2 = .patAny := by
    intro hne
    by_cases hP : T.nulls ∨ T.extractors
    · exact (hbelow hP).kept hpassed hne
    · have hnone := hin.scope.none fun he => hP (.inr he)
      exact absurd (getScopedExpr_eq fun v e1 _ hv => by rw [hnone v] at hv; cases hv) hne
  have hdflt := h.dflt
  rw [hsubject] at hdflt
  obtain ⟨hv, hvs⟩ := List.forall₂_cons.1 hval
  have hlen : (subjects.map (evalExpr R ρ')).length = ts.length := by rw [List.length_map, hl]
  have hvalue := eval_getScopedExpr (hholds.deferred hin.scope (Deferred.Sub.refl d)) subject
  have hscope := (passed_inScope hrows hsub hin hexplicit hkept).gain h.sub2
  have hafter : Holds R (gained (gained L (markUsed subject d) d2) d2 d3) A ρ ρ' := by
    refine hholds.mono fun v hv => gained_use v ?_
    rw [hd4]
    exact gained_trans h.sub2 h.sub3 v hv
  rw [hexplicit, hnil, hcases, switchTree_passed]
  constructor
  · intro hnull
    rw [List.map_cons, ← hvalue]
    have hP := fun hn => (hbelow hn).null hnull d2 h.sub2
    rw [hsubject, hnil, List.nil_append] at hP
    refine null_selects hrows hex trivial hlen (hvalue ▸ hv) (hvalue ▸ hnull) ?_
    rw [nullRows_eq_nil.2 (hno _), List.nil_append]
    exact hdflt _ A hscope ρ ρ' hafter hvs hP
  · intro hnull
    rw [List.map_cons, ← hvalue]
    have hP := fun hn => (hbelow hn).dflt hnull (fun c hc => absurd hc (hno c)) d2 h.sub2
    rw [hsubject] at hP
    refine default_selects hrows hex trivial hlen (fun r hr pat hpat c hc => absurd ⟨r, hr, pat, hpat, hc⟩ (hno c)) ?_
    exact hdflt _ A hscope ρ ρ' hafter hvs hP

end

/-- A subject that is not passed over is assigned or to be. -/
theorem subjectOk_of_used (hrows : ∀ r ∈ rows, FlatOk T (fun _ => True) (t :: ts) r)
    (hin : InScope T ctx n L A d (t :: ts) (subject :: subjects) rows) (hempty : rows = [] → SubjectOk L d subject)
    (hpassed : ¬ passedOver ctx subject rows = true) : SubjectOk L d subject := by
  by_contra hs
  have hany : ∀ r ∈ rows, ∃ pat ∈ r.patterns.head?, pat = .patAny ∧ ctx.isExplicitNull subject = false := by
    intro r hr
    obtain ⟨pat, hpat, hfirst, -⟩ := hin.columns hrows r hr
    exact ⟨pat, hpat, hfirst.resolve_left hs⟩
  cases hr : rows with
  | nil => exact hs (hempty hr)
  | cons r _ =>
    obtain ⟨-, -, -, hexplicit⟩ := hany r (hr ▸ List.mem_cons_self ..)
    refine hpassed (passedOver_iff.2 ⟨hexplicit, ?_⟩)
    rintro c ⟨q, hq, pat, hpat, hc⟩
    obtain ⟨pat', hpat', rfl, -⟩ := hany q hq
    obtain rfl := Option.mem_unique hpat hpat'
    cases hc

/-- `compile_switch` on a prepared matrix without extractors. -/
theorem compileSwitch_correct (d : Deferred)
    (hrows : ∀ r ∈ rows, FlatOk T (fun _ => True) (t :: ts) r) (hex : NoExtractor rows)
    (hl : subjects.length = ts.length) (hsub : subject.Below n) (hsubs : ∀ e ∈ subjects, e.Below n)
    (hrec : CorrectBelow T ctx compile P (fuelNeed (subjects.length + 1) (rowsWeight rows))) :
    ∃ dt d', compileSwitch ctx compile n d (subject :: subjects) rows = .ok (dt, d') ∧ Deferred.Sub d' d ∧
      ∀ L A, InScope T ctx n L A d (t :: ts) (subject :: subjects) rows → (rows = [] → SubjectOk L d subject) →
        ∀ ρ ρ' : Env V, Holds R (gained L d d') A ρ ρ' →
        List.Forall₂ T.val (t :: ts) ((subject :: subjects).map (evalExpr R ρ')) →
        (T.nulls ∨ T.extractors → BelowSwitch R ctx P n d subject subjects rows ρ') →
        SwitchCorrect T subject subjects rows dt ρ ρ' := by
  obtain ⟨sigma, cases, sd, sn, d2, d3, d4, hswitch, hparts⟩ := compileSwitch_parts d hrows hex hl hsub hsubs hrec
  have hd4 : Deferred.Sub d4 d := ((hparts.sub4.trans hparts.sub3).trans hparts.sub2).trans (markUsed_sub subject d)
  refine ⟨_, _, hswitch, resetSubject_sub subject hd4, fun L A hin hempty ρ ρ' hholds hval hbelow => ?_⟩
  by_cases hpassed : passedOver ctx subject rows = true
  · exact hparts.passed_correct hrows hex hl hsub hin hpassed hholds hval hbelow
  · have hs := subjectOk_of_used hrows hin hempty hpassed
    exact hparts.used_correct hrows hex hl hsub hin hs hpassed hholds hval hbelow

end

end EvilHaxe.Matcher
