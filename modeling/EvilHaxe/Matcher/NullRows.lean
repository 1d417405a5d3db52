/-
The matrix that `compile_switch` compiles for `null`: the rows with a `null` pattern, then those with a
wildcard. It calls for what the rows call for in that order, which need not be what they call for in the
order of the source.
-/
import EvilHaxe.Matcher.Column

namespace EvilHaxe.Matcher

variable {V : Type} {R : Runtime V} {Ty : Type} {T : PatternTyping R Ty}

/-! ## Rows for `null` -/

/-- Is the first pattern of the row `null`? -/
def isNullRow (r : Row) : Bool := r.patterns.head?.any fun pat => headCon pat = some (.conConst .tNull)

theorem nullPattern_none {subject : TExpr} (case : Case) {rest : List Pattern} :
    ∀ (pat : Pattern) (bindings : List (Nat × TExpr)), headCon pat ≠ some (.conConst .tNull) →
      nullPattern subject case bindings pat rest = none
  | .patConstructor _ _, _, h => if_neg fun hc => h (congrArg some hc)
  | .patBind _ pat, _, h => nullPattern_none case pat _ h
  | .patAny, _, _ | .patOr _ _, _, _ | .patTuple _, _, _ | .patExtractor _ _, _, _ => rfl

theorem defaultPattern_none {subject : TExpr} (case : Case) {rest : List Pattern} {c : Con} :
    ∀ (pat : Pattern) (bindings : List (Nat × TExpr)), headCon pat = some c →
      defaultPattern subject case bindings pat rest = none
  | .patConstructor _ _, _, _ => rfl
  | .patBind _ pat, _, h => defaultPattern_none case pat _ h

theorem nullPattern_ok {subject : TExpr} {B : TExpr → Prop} (hsub : B subject) (case : Case)
    {rest : List Pattern} {r : Row} {t : Ty} :
    ∀ (pat : Pattern) (bindings : List (Nat × TExpr)), Fits T pat t → (∀ b ∈ bindings, B b.2) →
      r ∈ nullPattern subject case bindings pat rest →
      r.case = case ∧ r.patterns = rest ∧
        r.vars.Perm (bindings.map Prod.fst ++ patsVars (pat :: rest)) ∧ ∀ b ∈ r.bindings, B b.2
  | .patConstructor con pats, bindings, ht, hb, hr => by
    simp only [Fits] at ht
    simp only [nullPattern] at hr
    split at hr
    · obtain rfl := (Option.mem_some_iff.1 hr).symm
      rename_i hc
      obtain ⟨-, rfl, -⟩ | ⟨-, hne, -⟩ := ht
      · exact ⟨rfl, rfl, by simp [Row.vars, patsVars, patVars], hb⟩
      · exact absurd hc hne
    · cases hr
  | .patBind x pat, bindings, ht, hb, hr => by
    obtain ⟨h1, h2, h3, h4⟩ := nullPattern_ok hsub case pat ((x, subject) :: bindings)
      (by simpa only [Fits] using ht) (List.forall_mem_cons.2 ⟨hsub, hb⟩) hr
    exact ⟨h1, h2, h3.trans List.perm_middle.symm, h4⟩

/-- A `null` pattern matches `null`, and binds nothing. -/
theorem nullPattern_alt {t : Ty} {ρ : Env V} {subject : TExpr} {vs : List V} (case : Case)
    (hval : T.val t (evalExpr R ρ subject)) (hnull : R.isNull (evalExpr R ρ subject) = true)
    {rest : List Pattern} {β : List (Nat × V)} :
    ∀ (pat : Pattern) (bindings : List (Nat × TExpr)), Fits T pat t →
      headCon pat = some (.conConst .tNull) →
      ((∃ β0 ∈ matchAll R (pat :: rest) (evalExpr R ρ subject :: vs),
          β.Perm (bindValues R ρ bindings ++ β0)) ↔
        ∃ r ∈ nullPattern subject case bindings pat rest,
          ∃ β0 ∈ matchAll R r.patterns vs, β.Perm (bindValues R ρ r.bindings ++ β0))
  | .patConstructor con pats, bindings, ht, hc => by
    simp only [Fits] at ht
    cases hc
    obtain ⟨-, rfl, hn⟩ | ⟨-, hne, -⟩ := ht
    · have hold : R.holds (.conConst .tNull) (evalExpr R ρ subject) = true := by rw [T.null_test hn hval, hnull]
      simp [nullPattern, patMatches, hold, Runtime.parts, matchAll]
    · exact absurd rfl hne
  | .patBind x pat, bindings, ht, hc => by
    rw [bindAlt_iff]
    exact nullPattern_alt case hval hnull pat _ (by simpa only [Fits] using ht) hc

section

variable {B : TExpr → Prop} {t : Ty} {ts : List Ty} {rows : List Row} {subject : TExpr}

theorem nullRow_ok (hrows : ∀ r ∈ rows, FlatOk T B (t :: ts) r) (hsub : B subject) :
    ∀ r ∈ rows.filterMap (nullRow subject), RowOk T B ts r := by
  intro r' hr'
  obtain ⟨r, hr, hr'⟩ := List.mem_filterMap.1 hr'
  obtain ⟨pat, rest, hp, ht, hts, _⟩ := (hrows r hr).uncons
  have hv := (hrows r hr).ok.varsOk
  rw [hp] at hv
  rw [nullRow_cons hp] at hr'
  obtain ⟨h1, h2, h3, h4⟩ := nullPattern_ok hsub r.case pat r.bindings ht (hrows r hr).ok.bound hr'
  refine (hrows r hr).ok.of_perm h1 ?_ (h2 ▸ hasRow_of_fitsAll hts) (h2 ▸ hv.2) h4
  unfold Row.vars at h3 ⊢
  rwa [hp]

theorem nullRow_columns (hrows : ∀ r ∈ rows, FlatOk T B (t :: ts) r) {r' : Row}
    (hr' : r' ∈ rows.filterMap (nullRow subject)) : ∃ r ∈ rows, r'.patterns = r.patterns.tail ∧ FitsAll T r.patterns.tail ts := by
  obtain ⟨r, hr, hr'⟩ := List.mem_filterMap.1 hr'
  obtain ⟨pat, rest, hp, ht, hts, -⟩ := (hrows r hr).uncons
  rw [nullRow_cons hp] at hr'
  obtain ⟨-, h2, -⟩ := nullPattern_ok (B := fun _ => True) trivial r.case pat r.bindings ht (fun _ _ => trivial) hr'
  exact ⟨r, hr, by rw [h2, hp]; rfl, by rw [hp]; exact hts⟩

theorem weight_nullPattern {subject : TExpr} (case : Case) {rest : List Pattern} {r : Row} :
    ∀ (pat : Pattern) (bindings : List (Nat × TExpr)), r ∈ nullPattern subject case bindings pat rest →
      weightAll r.patterns ≤ weightAll (pat :: rest) ∧ headCon pat = some (.conConst .tNull)
  | .patConstructor con _, _, hr => by
    simp only [nullPattern] at hr
    split at hr
    · obtain rfl := (Option.mem_some_iff.1 hr).symm
      rename_i hc
      exact ⟨Nat.le_mul_of_pos_left _ (Nat.succ_pos _), congrArg some hc⟩
    · cases hr
  | .patBind _ pat, _, hr => weight_nullPattern case pat _ hr

/-- A row is at most one of the two. -/
theorem rowWeight_null (subject : TExpr) (r : Row) :
    rowsWeight (nullRow subject r).toList + rowsWeight (defaultRow subject r).toList ≤
      weightAll r.patterns := by
  unfold nullRow defaultRow
  cases r.patterns with
  | nil => exact Nat.zero_le _
  | cons pat rest =>
    cases hn : nullPattern subject r.case r.bindings pat rest with
    | none =>
      cases hd : defaultPattern subject r.case r.bindings pat rest with
      | none => simp [hn, hd, rowsWeight]
      | some r' =>
        have := (weight_defaultPattern r.case pat r.bindings hd).1
        simpa [hn, hd, rowsWeight] using this
    | some r' =>
      obtain ⟨hle, hc⟩ := weight_nullPattern r.case pat r.bindings hn
      have hd : defaultPattern subject r.case r.bindings pat rest = none :=
        defaultPattern_none r.case pat r.bindings hc
      simpa [hn, hd, rowsWeight] using hle

/-- The rows for `null` are no heavier than the matrix. -/
theorem rowsWeight_null (subject : TExpr) : ∀ rows : List Row,
    rowsWeight (rows.filterMap (nullRow subject) ++ default subject rows) ≤ rowsWeight rows
  | [] => Nat.le_refl _
  | r :: rows => by
    have ih := rowsWeight_null subject rows
    have hdefault : default subject (r :: rows) = (defaultRow subject r).toList ++ default subject rows := by
      rw [default, List.filterMap_cons]
      cases defaultRow subject r <;> rfl
    have hnull : (r :: rows).filterMap (nullRow subject) =
        (nullRow subject r).toList ++ rows.filterMap (nullRow subject) := by
      rw [List.filterMap_cons]
      cases nullRow subject r <;> rfl
    have hrow := rowWeight_null subject r
    rw [hdefault, hnull, rowsWeight_cons]
    simp only [rowsWeight_append] at ih ⊢
    omega

/-- In a column of `null` a row with a `null` pattern or a wildcard loses the column. -/
theorem splits_null (hrows : ∀ r ∈ rows, FlatOk T B (t :: ts) r) (hex : NoExtractor rows)
    (hsub : B subject) {ρ : Env V} {vs : List V} (hl : vs.length = ts.length)
    (hval : T.val t (evalExpr R ρ subject)) (hnull : R.isNull (evalExpr R ρ subject) = true) {r : Row}
    (hr : r ∈ rows) : Splits R ρ (evalExpr R ρ subject :: vs) r ρ vs
      ((nullRow subject r).toList ++ (defaultRow subject r).toList) := by
  obtain ⟨pat, rest, hp, ht, hts, hf⟩ := (hrows r hr).uncons
  have he : isExtractor pat = false := hex r hr pat (by rw [hp]; rfl)
  have hdefault : defaultRow subject r = defaultPattern subject r.case r.bindings pat rest := by
    unfold defaultRow
    rw [hp]
  have hpatterns : ∀ r' ∈ (nullRow subject r).toList ++ (defaultRow subject r).toList,
      r'.case = r.case ∧ r'.patterns = rest := by
    intro r' hr'
    rw [nullRow_cons hp, hdefault] at hr'
    rcases List.mem_append.1 hr' with hr' | hr'
    · obtain ⟨h1, h2, -⟩ := nullPattern_ok hsub r.case pat r.bindings ht (hrows r hr).ok.bound
        (Option.mem_toList.1 hr')
      exact ⟨h1, h2⟩
    · obtain ⟨h1, h2, -⟩ := defaultPattern_ok hsub r.case pat r.bindings (hrows r hr).ok.bound
        (Option.mem_toList.1 hr')
      exact ⟨h1, h2⟩
  refine ⟨fun r' hr' => (hpatterns r' hr').1, fun β => ?_⟩
  have halt : RowAlt R ρ (evalExpr R ρ subject :: vs) r β ↔
      ∃ r' ∈ (nullRow subject r).toList ++ (defaultRow subject r).toList,
        ∃ β0 ∈ matchAll R r'.patterns vs, β.Perm (bindValues R ρ r'.bindings ++ β0) := by
    rw [rowAlt_iff (by simp [hl]) (hrows r hr).types, hp, nullRow_cons hp, hdefault]
    by_cases hc : headCon pat = some (.conConst .tNull)
    · rw [defaultPattern_none r.case pat r.bindings hc,
        nullPattern_alt r.case hval hnull pat r.bindings ht hc]
      simp only [Option.toList_none, List.append_nil, Option.mem_toList, Option.mem_def]
    · have hno : ∀ c ∈ headCon pat, R.holds c (evalExpr R ρ subject) = false := fun c hcon =>
        T.null (headCon_typed pat ht (switchCon_eq_some.2 ⟨hcon, fun h => hc (h ▸ hcon)⟩)) hval hnull
      rw [nullPattern_none r.case pat r.bindings hc,
        defaultPattern_alt r.case pat r.bindings ht hf he hno]
      simp only [Option.toList_none, List.nil_append, Option.mem_toList, Option.mem_def]
  rw [halt]
  constructor
  · rintro ⟨r', hr', ha⟩
    exact ⟨r', hr', (rowAlt_iff hl ((hpatterns r' hr').2 ▸ hts)).2 ha⟩
  · rintro ⟨r', hr', ha⟩
    exact ⟨r', hr', (rowAlt_iff hl ((hpatterns r' hr').2 ▸ hts)).1 ha⟩

/-- A row is of one kind only. -/
theorem nullRow_eq_none {r : Row} (h : isNullRow r = false) : nullRow subject r = none := by
  unfold nullRow
  unfold isNullRow at h
  cases hp : r.patterns with
  | nil => rfl
  | cons pat rest => exact nullPattern_none r.case pat r.bindings (by simpa [hp] using h)

theorem defaultRow_eq_none {r : Row} (h : isNullRow r = true) : defaultRow subject r = none := by
  unfold defaultRow
  unfold isNullRow at h
  cases hp : r.patterns with
  | nil => rfl
  | cons pat rest => exact defaultPattern_none r.case pat r.bindings (by simpa [hp] using h)

theorem filterMap_nullRow : ∀ rows : List Row, rows.filterMap (nullRow subject) =
    (rows.filter isNullRow).flatMap fun r => (nullRow subject r).toList ++ (defaultRow subject r).toList
  | [] => rfl
  | r :: rows => by
    rw [List.filterMap_cons, List.filter_cons, filterMap_nullRow rows]
    cases h : isNullRow r with
    | false => simp [nullRow_eq_none h]
    | true =>
      rw [if_pos rfl, List.flatMap_cons, defaultRow_eq_none h]
      cases nullRow subject r <;> rfl

theorem filterMap_defaultRow : ∀ rows : List Row, default subject rows = (rows.filter (!isNullRow ·)).flatMap
    fun r => (nullRow subject r).toList ++ (defaultRow subject r).toList
  | [] => rfl
  | r :: rows => by
    have ih := filterMap_defaultRow rows
    rw [default] at ih ⊢
    rw [List.filterMap_cons, List.filter_cons, ih]
    cases h : isNullRow r with
    | true => simp [defaultRow_eq_none h]
    | false =>
      rw [Bool.not_false, if_pos rfl, List.flatMap_cons, nullRow_eq_none h]
      cases defaultRow subject r <;> rfl

/-- The rows for `null` call for what the rows call for with those of `null` first. -/
theorem null_selects {N : Prop} (hrows : ∀ r ∈ rows, FlatOk T B (t :: ts) r) (hex : NoExtractor rows)
    (hsub : B subject) {ρ : Env V} {vs : List V} (hl : vs.length = ts.length)
    (hval : T.val t (evalExpr R ρ subject)) (hnull : R.isNull (evalExpr R ρ subject) = true)
    {res : Option (Case × Env V)}
    (hs : RowSelects R N ρ vs (rows.filterMap (nullRow subject) ++ default subject rows) res) :
    RowSelects R N ρ (evalExpr R ρ subject :: vs) (rows.filter isNullRow ++ rows.filter (!isNullRow ·)) res := by
  have hsplit : rows.filterMap (nullRow subject) ++ default subject rows =
      (rows.filter isNullRow ++ rows.filter (!isNullRow ·)).flatMap
        fun r => (nullRow subject r).toList ++ (defaultRow subject r).toList := by
    rw [List.flatMap_append]
    congr 1
    · exact filterMap_nullRow rows
    · exact filterMap_defaultRow rows
  rw [hsplit] at hs
  refine rowSelects_flatMap (fun r hr => splits_null hrows hex hsub hl hval hnull ?_) hs
  rcases List.mem_append.1 hr with hr | hr
  · exact List.mem_of_mem_filter hr
  · exact List.mem_of_mem_filter hr

end

/-! ## The order of the rows -/

variable (R) in
/-- The first row that is not passed over. -/
def First (ρ : Env V) (vs : List V) (rows : List Row) (r : Row) : Prop :=
  ∃ pre post, rows = pre ++ r :: post ∧ (∀ q ∈ pre, Fails R ρ vs q) ∧ ¬ Fails R ρ vs r

variable (R) in
/-- No row of `null` overtakes: if one is not passed over, the first of them has the case of the first row. -/
def Kept (ρ : Env V) (vs : List V) (rows : List Row) : Prop :=
  ∀ r r', First R ρ vs rows r → First R ρ vs (rows.filter isNullRow) r' → r.case = r'.case

section

variable {ρ : Env V} {vs : List V} {rows : List Row} {res : Option (Case × Env V)}

theorem first_cons {q r : Row} : First R ρ vs (q :: rows) r ↔
    (¬ Fails R ρ vs q ∧ q = r) ∨ (Fails R ρ vs q ∧ First R ρ vs rows r) := by
  constructor
  · rintro ⟨_ | ⟨q', pre⟩, post, he, hpre, hr⟩
    · obtain ⟨rfl, rfl⟩ := List.cons.inj he
      exact .inl ⟨hr, rfl⟩
    · obtain ⟨rfl, rfl⟩ := List.cons.inj he
      obtain ⟨hq, hpre⟩ := List.forall_mem_cons.1 hpre
      exact .inr ⟨hq, pre, post, rfl, hpre, hr⟩
  · rintro (⟨hq, rfl⟩ | ⟨hq, pre, post, rfl, hpre, hr⟩)
    · exact ⟨[], rows, rfl, nofun, hq⟩
    · exact ⟨q :: pre, post, rfl, List.forall_mem_cons.2 ⟨hq, hpre⟩, hr⟩

theorem First.unique {r r' : Row} : ∀ {rows : List Row}, First R ρ vs rows r → First R ρ vs rows r' → r = r'
  | [], h, _ => by
    obtain ⟨pre, post, he, -⟩ := h
    simp at he
  | q :: rows, h, h' => by
    rcases first_cons.1 h with ⟨hq, rfl⟩ | ⟨hq, h⟩
    · rcases first_cons.1 h' with ⟨-, he⟩ | ⟨hf, -⟩
      · exact he
      · exact absurd hf hq
    · rcases first_cons.1 h' with ⟨hn, -⟩ | ⟨-, h'⟩
      · exact absurd hq hn
      · exact First.unique h h'

theorem exists_first : ∀ {rows : List Row}, (∃ q ∈ rows, ¬ Fails R ρ vs q) → ∃ r, First R ρ vs rows r
  | [], h => by
    obtain ⟨q, hq, -⟩ := h
    cases hq
  | r :: rows, h => by
    by_cases hr : Fails R ρ vs r
    · obtain ⟨q, hq, hnot⟩ := h
      rcases List.mem_cons.1 hq with rfl | hq
      · exact absurd hr hnot
      · obtain ⟨r', h'⟩ := exists_first ⟨q, hq, hnot⟩
        exact ⟨r', first_cons.2 (.inr ⟨hr, h'⟩)⟩
    · exact ⟨r, first_cons.2 (.inl ⟨hr, rfl⟩)⟩

theorem First.not_fails {r : Row} (h : First R ρ vs rows r) : r ∈ rows ∧ ¬ Fails R ρ vs r := by
  obtain ⟨pre, post, rfl, -, hr⟩ := h
  exact ⟨List.mem_append_right _ (List.mem_cons_self ..), hr⟩

theorem First.filter {r : Row} {p : Row → Bool} (h : First R ρ vs rows r) (hp : p r = true) :
    First R ρ vs (rows.filter p) r := by
  obtain ⟨pre, post, rfl, hpre, hr⟩ := h
  refine ⟨pre.filter p, post.filter p, ?_, fun q hq => hpre q (List.mem_of_mem_filter hq), hr⟩
  rw [List.filter_append, List.filter_cons, if_pos hp]

/-- No matter what is bound, the rows call for the case of the first row. -/
theorem rowSelects_iff : ∀ {rows : List Row}, RowSelects R True ρ vs rows res ↔
    (∃ r, First R ρ vs rows r ∧ ∃ ρ', res = some (r.case, ρ')) ∨
      ((∀ r ∈ rows, Fails R ρ vs r) ∧ res = none)
  | [] => by simp [RowSelects, First]
  | r :: rows => by
    have htakes : Takes R True ρ vs r res ↔ ¬ Fails R ρ vs r ∧ ∃ ρ', res = some (r.case, ρ') := by
      simp only [Takes, Fails, not_true_eq_false, false_imp_iff, and_true, not_forall, Bool.not_eq_false]
      constructor
      · rintro ⟨ρ', β, h, ha, hg⟩
        exact ⟨⟨β, ha, hg⟩, ρ', h⟩
      · rintro ⟨⟨β, ha, hg⟩, ρ', h⟩
        exact ⟨ρ', β, h, ha, hg⟩
    rw [RowSelects, htakes, @rowSelects_iff rows]
    simp only [first_cons, List.forall_mem_cons]
    constructor
    · rintro (⟨hr, hres⟩ | ⟨hr, ⟨q, hq, hres⟩ | ⟨hf, hres⟩⟩)
      · exact .inl ⟨r, .inl ⟨hr, rfl⟩, hres⟩
      · exact .inl ⟨q, .inr ⟨hr, hq⟩, hres⟩
      · exact .inr ⟨⟨hr, hf⟩, hres⟩
    · rintro (⟨q, ⟨hr, rfl⟩ | ⟨hr, hq⟩, hres⟩ | ⟨⟨hr, hf⟩, hres⟩)
      · exact .inl ⟨hr, hres⟩
      · exact .inr ⟨hr, .inl ⟨q, hq, hres⟩⟩
      · exact .inr ⟨hr, .inr ⟨hf, hres⟩⟩

theorem first_append {rows' : List Row} {r : Row} : ∀ {rows : List Row}, First R ρ vs (rows ++ rows') r →
    First R ρ vs rows r ∨ ((∀ q ∈ rows, Fails R ρ vs q) ∧ First R ρ vs rows' r)
  | [], h => .inr ⟨nofun, h⟩
  | q :: rows, h => by
    rcases first_cons.1 h with ⟨hq, rfl⟩ | ⟨hq, h⟩
    · exact .inl (first_cons.2 (.inl ⟨hq, rfl⟩))
    · rcases first_append h with h | ⟨hf, h⟩
      · exact .inl (first_cons.2 (.inr ⟨hq, h⟩))
      · exact .inr ⟨List.forall_mem_cons.2 ⟨hq, hf⟩, h⟩

/-- With the rows of `null` first the same case is called for exactly when none of them overtakes. -/
theorem rowSelects_null_iff
    (h : RowSelects R True ρ vs (rows.filter isNullRow ++ rows.filter (!isNullRow ·)) res) :
    RowSelects R True ρ vs rows res ↔ Kept R ρ vs rows := by
  have hmem : ∀ r ∈ rows, r ∈ rows.filter isNullRow ++ rows.filter (!isNullRow ·) := by
    intro r hr
    cases hn : isNullRow r with
    | true => exact List.mem_append_left _ (List.mem_filter.2 ⟨hr, hn⟩)
    | false => exact List.mem_append_right _ (List.mem_filter.2 ⟨hr, by rw [hn]; rfl⟩)
  rw [rowSelects_iff] at h ⊢
  rcases h with ⟨q, hq, ρ', hres⟩ | ⟨hfails, hres⟩
  · rcases first_append hq with hnull | ⟨hfails, hq⟩
    · -- a row of `null` is taken
      obtain ⟨r, hr⟩ := exists_first ⟨q, List.mem_of_mem_filter hnull.not_fails.1, hnull.not_fails.2⟩
      constructor
      · rintro (⟨r', hr', ρ'', hres'⟩ | ⟨-, hnone⟩) p p' hp hp'
        · obtain rfl := hp.unique hr'
          obtain rfl := hp'.unique hnull
          rw [hres] at hres'
          exact (congrArg Prod.fst (Option.some.inj hres')).symm
        · rw [hres] at hnone
          cases hnone
      · intro hkept
        exact .inl ⟨r, hr, ρ', by rw [hres, hkept r q hr hnull]⟩
    · -- no row of `null` would be
      obtain ⟨r, hr⟩ := exists_first ⟨q, List.mem_of_mem_filter hq.not_fails.1, hq.not_fails.2⟩
      have hother : (!isNullRow r) = true := by
        cases hn : isNullRow r with
        | true => exact absurd (hfails r (List.mem_filter.2 ⟨hr.not_fails.1, hn⟩)) hr.not_fails.2
        | false => rfl
      obtain rfl := (hr.filter hother).unique hq
      refine iff_of_true (.inl ⟨r, hr, ρ', hres⟩) fun p p' _ hp' => ?_
      exact absurd (hfails p' hp'.not_fails.1) hp'.not_fails.2
  · refine iff_of_true (.inr ⟨fun r hr => hfails r (hmem r hr), hres⟩) fun p p' hp _ => ?_
    exact absurd (hfails p (hmem p hp.not_fails.1)) hp.not_fails.2

end

/-! ## Null rows first -/

/-- The rows of `null`, then the others. -/
def nullFirst (rows : List Row) : List Row := rows.filter isNullRow ++ rows.filter (!isNullRow ·)

theorem fits_null {t : Ty} : ∀ {p : Pattern}, Fits T p t → headCon p = some (.conConst .tNull) → T.nulls
  | .patConstructor con _, ht, hc => by
    simp only [Fits] at ht
    cases hc
    obtain ⟨-, -, hn⟩ | ⟨-, hne, -⟩ := ht
    · exact hn
    · exact absurd rfl hne
  | .patBind _ pat, ht, hc => fits_null (p := pat) (by simpa only [Fits] using ht) hc

/-- Rows of `null` are there only where they are allowed. -/
theorem nulls_of_isNullRow {B : TExpr → Prop} {t : Ty} {ts : List Ty} {r : Row} (hr : FlatOk T B (t :: ts) r)
    (h : isNullRow r = true) : T.nulls := by
  obtain ⟨pat, rest, hp, ht, -⟩ := hr.uncons
  refine fits_null ht ?_
  simpa [isNullRow, hp] using h

/-- When no row of `null` overtakes, what the rows call for with those first is what they call for. -/
theorem rowSelects_of_nullFirst {B : TExpr → Prop} {t : Ty} {ts : List Ty} {rows : List Row} {ρ : Env V} {vs : List V}
    {res : Option (Case × Env V)} (hrows : ∀ r ∈ rows, FlatOk T B (t :: ts) r) (hkept : T.nulls → Kept R ρ vs rows)
    (h : RowSelects R T.nulls ρ vs (nullFirst rows) res) : RowSelects R T.nulls ρ vs rows res := by
  by_cases hn : T.nulls
  · rw [eq_true hn] at h ⊢
    exact (rowSelects_null_iff h).2 (hkept hn)
  · have hnone : ∀ r ∈ rows, isNullRow r = false := fun r hr =>
      Bool.eq_false_iff.2 fun h => hn (nulls_of_isNullRow (hrows r hr) h)
    have hfirst : nullFirst rows = rows := by
      unfold nullFirst
      rw [List.filter_eq_nil_iff.2 fun r hr => by rw [hnone r hr]; exact Bool.false_ne_true,
        List.filter_eq_self.2 fun r hr => by rw [hnone r hr]; rfl]
      rfl
    rwa [hfirst] at h

end EvilHaxe.Matcher
