/-
The compiler is correct: on well-formed cases `compile` succeeds, and its decision tree reaches the
first case that has a match with a true guard, with the bindings of such a match. With `null` patterns it
does so for values that meet the condition of `InOrder`.

The proof is by induction on the fuel, which bounds the weight of the matrix.
-/
import EvilHaxe.Matcher.Columns

namespace EvilHaxe.Matcher

variable {V : Type} {R : Runtime V} {Ty : Type} {T : PatternTyping R Ty}

theorem forall₂_moveColumn {α β : Type} {P : α → β → Prop} (i : Nat) {l : List α} {l' : List β}
    (h : List.Forall₂ P l l') : List.Forall₂ P (moveColumn i l) (moveColumn i l') := by
  obtain ⟨z, rfl, rfl⟩ := exists_pairs h.length_eq
  rw [moveColumn_map, moveColumn_map]
  rw [List.forall₂_map_left_iff, List.forall₂_map_right_iff, List.forall₂_same] at h ⊢
  exact fun p hp => h p ((moveColumn_perm i z).mem_iff.1 hp)

/-- A row with a pattern has a subject. -/
theorem types_ne_nil (i : Nat) {pats : List Pattern} {ts : List Ty} (h : HasRow T pats ts)
    (hw : ¬ pats.all isWildcardPattern = true) : moveColumn i ts ≠ [] := by
  intro hnil
  have hts : ts = [] := List.length_eq_zero_iff.1 <| by
    rw [← (moveColumn_perm i ts).length_eq, hnil]; rfl
  subst hts
  match pats, h, hw with
  | [], _, hw => exact hw rfl
  | [_], h, _ => exact h.1 rfl
  | _ :: _ :: _, h, _ => simp [HasRow, FitsAll] at h

/-- The preparation of a matrix keeps what its rows call for. -/
theorem prepared_selects (i : Nat) {B : TExpr → Prop} {ts : List Ty} {rows : List Row} (hrows : ∀ r ∈ rows, RowOk T B ts r)
    {N : Prop} {ρ : Env V} {vs : List V} (hl : vs.length = ts.length) {res : Option (Case × Env V)}
    (h : RowSelects R N ρ (moveColumn i vs) (expand ((expand rows).map (Row.move i))) res) :
    RowSelects R N ρ vs rows res := by
  have h1 : ∀ r ∈ expand rows, FlatOk T B ts r := expand_ok hrows
  have h2 : ∀ r ∈ (expand rows).map (Row.move i), RowOk T B (moveColumn i ts) r := by
    intro r hr
    obtain ⟨q, hq, rfl⟩ := List.mem_map.1 hr
    exact rowOk_move i (h1 q hq)
  have hl' : (moveColumn i vs).length = (moveColumn i ts).length := by
    rw [(moveColumn_perm i vs).length_eq, (moveColumn_perm i ts).length_eq, hl]
  exact expand_selects hrows hl (move_selects i h1 hl (expand_selects h2 hl' h))

/-- The prepared matrix is well formed. -/
theorem prepared_ok (i : Nat) {B : TExpr → Prop} {ts : List Ty} {rows : List Row} (hrows : ∀ r ∈ rows, RowOk T B ts r) :
    ∀ r ∈ expand ((expand rows).map (Row.move i)), FlatOk T B (moveColumn i ts) r := by
  refine expand_ok fun r hr => ?_
  obtain ⟨q, hq, rfl⟩ := List.mem_map.1 hr
  exact rowOk_move i (expand_ok hrows q hq)

section

variable {ctx : MatcherContext} {n : Nat} {d : Deferred} {ts : List Ty} {subjects : List TExpr} {rows : List Row}
  {L : Nat → Prop} {P P' : Env V → Prop} {res : Compiled}

mutual

theorem expandPattern_ne_nil : ∀ (f : Pattern → Pattern) (pat : Pattern) (rest : List Pattern),
    expandPattern f pat rest ≠ []
  | f, .patOr pat1 pat2, rest => by
    rw [expandPattern]
    exact fun h => expandPattern_ne_nil f pat1 rest (List.append_eq_nil_iff.1 h).1
  | f, .patBind x pat, rest => by
    rw [expandPattern]
    exact expandPattern_ne_nil _ pat rest
  | f, .patTuple pats, rest => by
    rw [expandPattern]
    exact expandTuple_ne_nil f pats rest
  | _, .patAny, _ | _, .patConstructor _ _, _ | _, .patExtractor _ _, _ => by simp [expandPattern]

theorem expandTuple_ne_nil : ∀ (f : Pattern → Pattern) (pats rest : List Pattern), expandTuple f pats rest ≠ []
  | f, [], rest => by simp [expandTuple]
  | f, pat :: pats, rest => by
    rw [expandTuple]
    exact expandPattern_ne_nil f pat (pats ++ rest)

end

/-- No row is lost. -/
theorem expand_ne_nil (h : rows ≠ []) : expand rows ≠ [] := by
  obtain ⟨r, rows, rfl⟩ := List.exists_cons_of_ne_nil h
  have hr : expandPatterns r.patterns ≠ [] := by
    cases r.patterns with
    | nil => exact List.cons_ne_nil _ _
    | cons pat rest => exact expandPattern_ne_nil id pat rest
  rw [expand, List.flatMap_cons]
  exact fun h => hr (List.map_eq_nil_iff.1 (List.append_eq_nil_iff.1 h).1)

theorem expand_rowScope (hrows : ∀ r ∈ rows, RowOk T (fun _ => True) ts r)
    (h : ∀ r ∈ rows, RowScope T ctx L d ts subjects r) : ∀ r ∈ expand rows, RowScope T ctx L d ts subjects r := by
  intro r' hr'
  have htypes := (expand_ok hrows r' hr').types
  obtain ⟨r, hr, hr'⟩ := List.mem_flatMap.1 hr'
  obtain ⟨ps, hps, rfl⟩ := List.mem_map.1 hr'
  rcases h r hr with hall | ⟨hfits, hcolumns⟩
  · exact .inl hall
  · refine .inr ⟨htypes, ?_⟩
    have hv := (hrows r hr).varsOk
    cases hp : r.patterns with
    | nil =>
      rw [hp] at hps
      obtain rfl := List.mem_singleton.1 hps
      rw [List.zip_nil_right]
      exact nofun
    | cons pat rest =>
      rw [hp] at hps hfits hcolumns hv
      cases ts with
      | nil => simp [FitsAll] at hfits
      | cons t ts =>
        simp only [FitsAll] at hfits
        obtain ⟨q, rfl, -⟩ := (expands_pattern rest pat [] hfits.1 hv.1).each ps hps
        cases subjects with
        | nil => exact nofun
        | cons s subjects =>
          rw [List.zip_cons_cons] at hcolumns
          obtain ⟨hfirst, hrest⟩ := List.forall_mem_cons.1 hcolumns
          refine List.forall_mem_cons.2 ⟨?_, hrest⟩
          rcases hfirst with hs | ⟨rfl, hexplicit⟩
          · exact .inl hs
          · have hq : q :: rest = .patAny :: rest := List.mem_singleton.1 hps
            exact .inr ⟨(List.cons.inj hq).1, hexplicit⟩

theorem move_rowScope (i : Nat) (hl : subjects.length = ts.length) {r : Row} (h : RowScope T ctx L d ts subjects r) :
    RowScope T ctx L d (moveColumn i ts) (moveColumn i subjects) (r.move i) := by
  rcases h with hall | ⟨hfits, hcolumns⟩
  · exact .inl fun e he => hall e ((moveColumn_perm i subjects).mem_iff.1 he)
  · refine .inr ⟨fitsAll_moveColumn i hfits, ?_⟩
    obtain ⟨z, hz1, hz2⟩ := exists_pairs (hl.trans (fitsAll_length hfits).symm)
    have hzip : ∀ w : List (TExpr × Pattern), (w.map Prod.fst).zip (w.map Prod.snd) = w := fun w => by
      rw [List.zip_map']
      simp
    rw [hz1, hz2, hzip] at hcolumns
    show ∀ p ∈ (moveColumn i subjects).zip (moveColumn i r.patterns), ColumnOk ctx L d p.1 p.2
    rw [hz1, hz2, moveColumn_map, moveColumn_map, hzip]
    exact fun p hp => hcolumns p ((moveColumn_perm i z).mem_iff.1 hp)

theorem prepared_rowScope (i : Nat) (hm : MatrixOk T n ts subjects rows)
    (h : ∀ r ∈ rows, RowScope T ctx L d ts subjects r) : ∀ r ∈ expand ((expand rows).map (Row.move i)),
      RowScope T ctx L d (moveColumn i ts) (moveColumn i subjects) r := by
  refine expand_rowScope (fun r hr => ?_) fun r hr => ?_
  · obtain ⟨q, hq, rfl⟩ := List.mem_map.1 hr
    exact rowOk_move i (expand_ok hm.rows_ok q hq)
  · obtain ⟨q, hq, rfl⟩ := List.mem_map.1 hr
    exact move_rowScope i hm.length (expand_rowScope hm.rows_ok h q hq)

theorem Compiles.of_imp (h : Compiles T ctx P n d ts subjects rows res) (hP : ∀ ρ, P' ρ → P ρ) :
    Compiles T ctx P' n d ts subjects rows res := by
  obtain ⟨dt, d', hres, hd, hcorrect⟩ := h
  exact ⟨dt, d', hres, hd, fun L A hin ρ ρ' hholds hval hP' => hcorrect L A hin ρ ρ' hholds hval fun hn => hP ρ' (hP' hn)⟩

/-- A matrix is compiled as it is prepared. -/
theorem Compiles.of_prepared (i : Nat) (hm : MatrixOk T n ts subjects rows)
    (h : Compiles T ctx P n d (moveColumn i ts) (moveColumn i subjects) (expand ((expand rows).map (Row.move i))) res) :
    Compiles T ctx P n d ts subjects rows res := by
  obtain ⟨dt, d', hres, hd, hcorrect⟩ := h
  refine ⟨dt, d', hres, hd, fun L A hin ρ ρ' hholds hval hP => ?_⟩
  have hin' : InScope T ctx n L A d (moveColumn i ts) (moveColumn i subjects) (expand ((expand rows).map (Row.move i))) :=
    ⟨hin.scope, prepared_rowScope i hm hin.subjects_ok, fun r hr => (prepared_ok i hin.rows_ok r hr).ok⟩
  have hval' : List.Forall₂ T.val (moveColumn i ts) ((moveColumn i subjects).map (evalExpr R ρ')) := by
    rw [← moveColumn_map]
    exact forall₂_moveColumn i hval
  have hs := hcorrect L A hin' ρ ρ' hholds hval' hP
  rw [← moveColumn_map] at hs
  exact prepared_selects i hm.rows_ok (by rw [List.length_map, hm.length]) hs

end

/-- `compile` succeeds and is correct, by induction on the fuel. -/
theorem compileRows_correct (ctx : MatcherContext) : ∀ (fuel n : Nat) (d : Deferred) (ts : List Ty)
    (subjects : List TExpr) (rows : List Row), fuelNeed subjects.length (rowsWeight rows) ≤ fuel →
    MatrixOk T n ts subjects rows →
    Compiles T ctx (InOrder R ctx fuel n d subjects rows) n d ts subjects rows (compileRows ctx fuel n d subjects rows)
  | 0, _, _, _, subjects, rows, hfuel, _ =>
    absurd (Nat.lt_of_lt_of_le (fuelNeed_pos subjects.length (rowsWeight rows)) hfuel) (Nat.lt_irrefl 0)
  | fuel + 1, n, d, ts, subjects, [], _, _ => ⟨.fail, d, rfl, Deferred.Sub.refl d, fun _ _ _ _ _ _ _ _ => rfl⟩
  | fuel + 1, n, d, ts, subjects, r :: rows, hfuel, hm => by
    obtain ⟨hr, hrest⟩ := List.forall_mem_cons.1 hm.rows_ok
    have ih := compileRows_correct ctx fuel
    unfold compileRows
    by_cases hw : r.patterns.all isWildcardPattern = true
    · have hpos := weightAll_pos r.patterns
      have hlighter : rowsWeight rows < rowsWeight (r :: rows) := by
        rw [rowsWeight_cons]
        omega
      have hneed := fuelNeed_row (c := subjects.length) hlighter
      have hleaf := compileLeaf_correct hm hw (ih n d ts subjects rows (by omega) ⟨hm.length, hm.below, hrest⟩)
      simp only [hw, if_true]
      refine hleaf.of_imp fun ρ horder => ?_
      rwa [InOrder, if_pos hw] at horder
    · simp only [hw, selectColumn_eq]
      refine Compiles.of_prepared (columnIndex (expand (r :: rows))) hm ?_
      generalize hi : columnIndex (expand (r :: rows)) = i
      have hflat := prepared_ok i hm.rows_ok
      have hl : (moveColumn i subjects).length = (moveColumn i ts).length := by
        rw [(moveColumn_perm i subjects).length_eq, (moveColumn_perm i ts).length_eq, hm.length]
      have hbelow : ∀ e ∈ moveColumn i subjects, e.Below n := fun e he =>
        hm.below e ((moveColumn_perm i subjects).mem_iff.1 he)
      obtain ⟨t, ts', hts⟩ := List.exists_cons_of_ne_nil (types_ne_nil i hr.typed hw)
      obtain ⟨s, subjects', hsubjects⟩ : ∃ s subjects', moveColumn i subjects = s :: subjects' := by
        cases hm : moveColumn i subjects with
        | nil => rw [hm, hts] at hl; cases hl
        | cons s subjects' => exact ⟨s, subjects', rfl⟩
      have hcolumns : subjects.length = subjects'.length + 1 := by
        rw [← (moveColumn_perm i subjects).length_eq, hsubjects, List.length_cons]
      have hneed : fuelNeed (subjects'.length + 1) (rowsWeight (expand ((expand (r :: rows)).map (Row.move i)))) ≤
          fuel + 1 := by
        rw [← hcolumns]
        refine Nat.le_trans ?_ hfuel
        exact fuelNeed_mono (rowsWeight_prepared (r :: rows) i)
      rw [hts, hsubjects] at hl ⊢
      rw [hsubjects] at hbelow
      rw [hts] at hflat
      obtain ⟨hs, hss⟩ := List.forall_mem_cons.1 hbelow
      have hrec : CorrectBelow T ctx (compileRows ctx fuel) (InOrder R ctx fuel)
          (fuelNeed (subjects'.length + 1) (rowsWeight (expand ((expand (r :: rows)).map (Row.move i))))) :=
        fun n' d' ts'' subjects'' rows' hm' hlt => ih n' d' ts'' subjects'' rows' (by omega) hm'
      have hempty : expand ((expand (r :: rows)).map (Row.move i)) ≠ [] :=
        expand_ne_nil fun h => expand_ne_nil (List.cons_ne_nil r rows) (List.map_eq_nil_iff.1 h)
      refine (compileColumn_correct d hflat (Nat.succ.inj hl) hs hss hrec hempty).of_imp fun ρ horder => ?_
      rw [InOrder, if_neg hw] at horder
      simp only [selectColumn_eq, hi, hsubjects] at horder
      exact horder

/-! ## `Compile.compile` -/

/-- The locals of the subjects hold their values; older locals keep theirs. -/
theorem bind_bindSubjects {m : Nat} : ∀ (n : Nat) (subjects : List TExpr) (ρ : Env V), m ≤ n →
    (∀ e ∈ subjects, e.Below m) →
    ρ.Agree (· < n) (ρ.bind R (bindSubjects n subjects).2) ∧
      (bindSubjects n subjects).1.map (evalExpr R (ρ.bind R (bindSubjects n subjects).2)) =
        subjects.map (evalExpr R ρ)
  | _, [], _, _, _ => ⟨fun _ _ => rfl, rfl⟩
  | n, e :: subjects, ρ, hm, hb => by
    obtain ⟨he, hrest⟩ := List.forall_mem_cons.1 hb
    have hplain := bind_bindSubjects n subjects ρ hm hrest
    have hlocal : ρ.Agree (· < n) (ρ.bind R ((.gen n, e) :: (bindSubjects (n + 1) subjects).2)) ∧
        (.tLocal n :: (bindSubjects (n + 1) subjects).1).map
          (evalExpr R (ρ.bind R ((.gen n, e) :: (bindSubjects (n + 1) subjects).2))) =
        (e :: subjects).map (evalExpr R ρ) := by
      have hset := agree_set ρ n (evalExpr R ρ e)
      obtain ⟨hagree, hvals⟩ := bind_bindSubjects (n + 1) subjects (ρ.set (.gen n) (evalExpr R ρ e))
        (Nat.le_succ_of_le hm) hrest
      have hbind : ρ.bind R ((.gen n, e) :: (bindSubjects (n + 1) subjects).2) =
          (ρ.set (.gen n) (evalExpr R ρ e)).bind R (bindSubjects (n + 1) subjects).2 := by
        show ((ρ.run R e).set (.gen n) (evalExpr R ρ e)).bind R (bindSubjects (n + 1) subjects).2 = _
        rw [run_plain he.plain]
      rw [hbind]
      refine ⟨fun v hv => (hagree v (Nat.lt_succ_of_lt hv)).trans (hset v hv), ?_⟩
      rw [List.map_cons, List.map_cons]
      refine congr (congrArg _ ?_) (hvals.trans (List.map_congr_left fun e' he' => ?_))
      · exact (hagree n (Nat.lt_succ_self n)).trans (if_pos rfl)
      · exact evalExpr_agree (hset.mono fun v hv => Nat.lt_of_lt_of_le hv hm) (hrest e' he').within
    cases e with
    | tConst c => exact ⟨hplain.1, congrArg _ hplain.2⟩
    | tLocal v => exact ⟨hplain.1, List.cons_eq_cons.2 ⟨hplain.1 v (Nat.lt_of_lt_of_le he hm), hplain.2⟩⟩
    | tEnumParameter _ _ _ => exact hlocal
    | tField _ _ => exact hlocal
    | tArray _ _ => exact hlocal
    | tExtract _ _ => exact hlocal
    | tAssign _ _ => exact hlocal
    | tOther _ => exact hlocal

theorem bindSubjects_length : ∀ (n : Nat) (subjects : List TExpr),
    (bindSubjects n subjects).1.length = subjects.length
  | _, [] => rfl
  | n, e :: subjects => by
    cases e with
    | tConst _ | tLocal _ => exact congrArg Nat.succ (bindSubjects_length n subjects)
    | tEnumParameter _ _ _ | tField _ _ | tArray _ _ | tExtract _ _ | tAssign _ _ | tOther _ =>
      exact congrArg Nat.succ (bindSubjects_length (n + 1) subjects)

theorem bindSubjects_below {m : Nat} : ∀ (n : Nat) (subjects : List TExpr), m ≤ n →
    (∀ e ∈ subjects, e.Below m) →
    ∀ e ∈ (bindSubjects n subjects).1, e.Below (n + (bindSubjects n subjects).2.length)
  | _, [], _, _ => nofun
  | n, e :: subjects, hm, hb => by
    obtain ⟨he, hrest⟩ := List.forall_mem_cons.1 hb
    have hplain := bindSubjects_below n subjects hm hrest
    have hlocal : ∀ e' ∈ TExpr.tLocal n :: (bindSubjects (n + 1) subjects).1,
        e'.Below (n + ((bindSubjects (n + 1) subjects).2.length + 1)) := by
      refine List.forall_mem_cons.2 ⟨Nat.lt_add_of_pos_right (Nat.succ_pos _), fun e' he' => ?_⟩
      have := bindSubjects_below (n + 1) subjects (Nat.le_succ_of_le hm) hrest e' he'
      exact this.mono (by omega)
    cases e with
    | tConst c => exact List.forall_mem_cons.2 ⟨trivial, hplain⟩
    | tLocal v => exact List.forall_mem_cons.2 ⟨he.mono (Nat.le_add_right_of_le hm), hplain⟩
    | tEnumParameter _ _ _ => exact hlocal
    | tField _ _ => exact hlocal
    | tArray _ _ => exact hlocal
    | tExtract _ _ => exact hlocal
    | tAssign _ _ => exact hlocal
    | tOther _ => exact hlocal

/-- The row that a case starts as. -/
def startRow (c : Case × Pattern) : Row := ⟨c.1, [], [c.2]⟩

theorem startRow_ok {B : TExpr → Prop} {ts : List Ty} {c : Case × Pattern} (hts : ts ≠ []) (h : CaseFits T ts c) :
    RowOk T B ts (startRow c) := by
  have hvars : (startRow c).vars = patVars c.2 := by simp [startRow, Row.vars, patsVars]
  exact ⟨⟨hts, h.typed⟩, ⟨h.vars, trivial⟩, hvars ▸ h.nodup, by rw [hvars]; exact h.closed, fun _ h => by cases h⟩

/-- Reordering the bindings of a match does not change the guard. -/
theorem guardTrue_perm {ts : List Ty} {c : Case × Pattern} (h : CaseFits T ts c) {vs : List V}
    {β β0 : List (Nat × V)} (h0 : β0 ∈ topMatches R c.2 vs) (hp : β.Perm β0) :
    guardTrue R c.1 β = guardTrue R c.1 β0 := by
  have hvars := vars_topMatches R c.2 h.vars h0
  have hn0 : (β0.map Prod.fst).Nodup := hvars.nodup_iff.2 h.nodup
  have hn : (β.map Prod.fst).Nodup := (hp.map Prod.fst).nodup_iff.2 hn0
  unfold guardTrue
  cases hg : c.1.caseGuard with
  | none => rfl
  | some g =>
    refine h.closed g hg _ _ fun x hx => ?_
    obtain ⟨⟨y, v⟩, hyv, rfl⟩ := List.mem_map.1 (hvars.mem_iff.2 hx)
    rw [lookup_of_mem hn0 hyv, lookup_of_mem hn (hp.mem_iff.2 hyv)]

/-- The outcome that the rows of the cases call for is the one the cases call for. -/
theorem selects_of_rowSelects {ts : List Ty} {ρ : Env V} {vs : List V} {res : Option (Case × Env V)} :
    ∀ {cases : List (Case × Pattern)}, (∀ c ∈ cases, CaseFits T ts c) →
      RowSelects R False ρ vs (cases.map startRow) res → Selects R cases vs res
  | [], _, h => by
    obtain rfl : res = none := h
    exact nofun
  | c :: cases, hok, h => by
    obtain ⟨hc, hcases⟩ := List.forall_mem_cons.1 hok
    rcases h with ⟨ρ', β, rfl, ⟨β0, h0, hp⟩, hg, hu⟩ | ⟨hf, h⟩
    · have hp : β.Perm β0 := hp
      exact ⟨[], c, cases, rfl, rfl, nofun, β0, h0, (guardTrue_perm hc h0 hp).symm.trans hg,
        fun x v hxv => hu id x v (hp.mem_iff.2 hxv)⟩
    · have hno : ¬ Accepts R c vs := by
        rintro ⟨β0, h0, hg⟩
        have := hf β0 ⟨β0, h0, .refl _⟩
        rw [show guardTrue R (startRow c).case β0 = true from hg] at this
        cases this
      have hs := selects_of_rowSelects hcases h
      cases res with
      | none => exact List.forall_mem_cons.2 ⟨hno, hs⟩
      | some p =>
        obtain ⟨pre, c', post, rfl, h1, h2, h3⟩ := hs
        exact ⟨c :: pre, c', post, rfl, h1, List.forall_mem_cons.2 ⟨hno, h2⟩, h3⟩

/-- Only a failure calls for no case. -/
theorem selects_none_iff {cases : List (Case × Pattern)} {vs : List V} {res : Option (Case × Env V)}
    (h : Selects R cases vs res) : res = none ↔ ∀ c ∈ cases, ¬ Accepts R c vs := by
  constructor
  · rintro rfl; exact h
  · intro hno
    cases res with
    | none => rfl
    | some p =>
      obtain ⟨pre, c, post, rfl, _, _, β, hβ, hg, _⟩ := h
      exact absurd ⟨β, hβ, hg⟩ (hno c (List.mem_append_right _ (List.mem_cons_self ..)))

/-- Every local of the program is assigned, and none is to be. -/
theorem start_inScope {ctx : MatcherContext} {n : Nat} {ts : List Ty} {subjects : List TExpr} {rows : List Row}
    (hbelow : ∀ e ∈ subjects, e.Below n) (hrows : ∀ B, ∀ r ∈ rows, RowOk T B ts r) :
    InScope T ctx n (· < n) (fun _ _ => False) [] ts subjects rows where
  scope := ⟨fun _ => id, nofun, nofun, fun _ _ => rfl⟩
  subjects_ok _ _ := .inl fun e he => .inl (hbelow e he).within
  rows_ok := hrows _

/-- Rows as they start are compiled to a tree that reaches what they call for, where the values meet the
conditions. -/
theorem compileRows_selects (ctx : MatcherContext) {fuel n : Nat} {ts : List Ty} {subjects : List TExpr} {rows : List Row}
    (hfuel : fuelNeed subjects.length (rowsWeight rows) ≤ fuel) (hl : subjects.length = ts.length)
    (hbelow : ∀ e ∈ subjects, e.Below n) (hrows : ∀ B, ∀ r ∈ rows, RowOk T B ts r) :
    ∃ dt d', compileRows ctx fuel n [] subjects rows = .ok (dt, d') ∧ ∀ ρ : Env V,
      List.Forall₂ T.val ts (subjects.map (evalExpr R ρ)) →
      (T.nulls ∨ T.extractors → InOrder R ctx fuel n [] subjects rows ρ) →
      RowSelects R T.nulls ρ (subjects.map (evalExpr R ρ)) rows (evalDt R ρ dt) := by
  obtain ⟨dt, d', hdt, -, hcorrect⟩ := compileRows_correct (R := R) ctx fuel n [] ts subjects rows hfuel ⟨hl, hbelow, hrows _⟩
  refine ⟨dt, d', hdt, fun ρ hval hin => ?_⟩
  exact hcorrect _ _ (start_inScope hbelow hrows) ρ ρ ⟨fun _ _ => rfl, nofun⟩ hval hin

/-- The compiler over at least one subject. -/
theorem compile_selects (T : PatternTyping R Ty) (ctx : MatcherContext) (n : Nat)
    (subjects : List TExpr) (ts : List Ty) (cases : List (Case × Pattern)) (hne : subjects ≠ [])
    (hl : subjects.length = ts.length) (hbelow : ∀ e ∈ subjects, e.Below n)
    (hcases : ∀ c ∈ cases, CaseFits T ts c) :
    ∃ dt, compile ctx n subjects cases = .ok dt ∧ ∀ ρ : Env V,
      List.Forall₂ T.val ts (subjects.map (evalExpr R ρ)) →
      (T.nulls ∨ T.extractors → InOrder R ctx (fuelFor (bindSubjects n subjects).1 (cases.map startRow))
        (n + (bindSubjects n subjects).2.length) [] (bindSubjects n subjects).1 (cases.map startRow)
        (ρ.bind R (bindSubjects n subjects).2)) →
      RowSelects R T.nulls (ρ.bind R (bindSubjects n subjects).2) (subjects.map (evalExpr R ρ)) (cases.map startRow)
        (evalDt R ρ dt) := by
  have hlen := (bindSubjects_length n subjects).trans hl
  have hstart : ∀ B, ∀ r ∈ cases.map startRow, RowOk T B ts r := by
    intro B r hr
    obtain ⟨c, hc, rfl⟩ := List.mem_map.1 hr
    exact startRow_ok (fun h => hne (List.length_eq_zero_iff.1 (by rw [hl, h]; rfl))) (hcases c hc)
  obtain ⟨dt, d', hdt, hcorrect⟩ := compileRows_selects (R := R) ctx
    (Nat.le_refl (fuelFor (bindSubjects n subjects).1 (cases.map startRow))) hlen
    (bindSubjects_below n subjects (Nat.le_refl n) hbelow) hstart
  cases cases with
  | nil =>
    -- the source then makes a switch without cases, on the first subject
    obtain ⟨e, subjects, rfl⟩ := List.exists_cons_of_ne_nil hne
    cases hb : bindSubjects n (e :: subjects) with
    | mk locals vars =>
      cases locals with
      | nil => rw [hb, ← hl] at hlen; cases hlen
      | cons subject locals =>
        refine ⟨.switch subject [] .fail, by unfold compile; rw [hb], fun ρ _ _ => ?_⟩
        simp [evalDt, evalCases, RowSelects]
  | cons c cases =>
    refine ⟨_, congrArg (Except.map _) hdt, fun ρ hval hin => ?_⟩
    obtain ⟨_, hvals⟩ := bind_bindSubjects n subjects ρ (Nat.le_refl n) hbelow
    have hs := hcorrect (ρ.bind R (bindSubjects n subjects).2) (by rw [hvals]; exact hval) hin
    rw [hvals] at hs
    refine Eq.mp (congrArg _ ?_) hs
    cases (bindSubjects n subjects).2 <;> rfl

/-- The compiler on well-formed cases over at least one subject: it succeeds, and on all values of the
types the tree reaches the first case with a match whose guard is true, its variables bound as in such
a match, and fails exactly when there is no such case. -/
theorem compile_correct (T : Typing R Ty) (ctx : MatcherContext) (n : Nat) (subjects : List TExpr)
    (ts : List Ty) (cases : List (Case × Pattern)) (hne : subjects ≠ [])
    (hl : subjects.length = ts.length) (hbelow : ∀ e ∈ subjects, e.Below n)
    (hcases : ∀ c ∈ cases, CaseOk T ts c) :
    ∃ dt, compile ctx n subjects cases = .ok dt ∧ ∀ ρ : Env V,
      List.Forall₂ T.val ts (subjects.map (evalExpr R ρ)) →
      Selects R cases (subjects.map (evalExpr R ρ)) (evalDt R ρ dt) ∧
      (evalDt R ρ dt = none ↔ ∀ c ∈ cases, ¬ Accepts R c (subjects.map (evalExpr R ρ))) := by
  have hfits : ∀ c ∈ cases, CaseFits T.plain ts c := fun c hc => (hcases c hc).fits
  obtain ⟨dt, hdt, h⟩ := compile_selects T.plain ctx n subjects ts cases hne hl hbelow hfits
  refine ⟨dt, hdt, fun ρ hval => ?_⟩
  have hs := selects_of_rowSelects hfits (h ρ hval fun hn => by rcases hn with hn | hn <;> exact hn.elim)
  exact ⟨hs, selects_none_iff hs⟩

/-! ## Options of integers, and two statics of one value -/

/-- Integers, and options of them. -/
inductive OptVal where
  | int (i : Int)
  | none
  | some (i : Int)

inductive OptTy where
  | int
  | option

def efNone : TEnumField := ⟨0, none⟩
def efSome : TEnumField := ⟨1, some ["v"]⟩

def optRuntime : Runtime OptVal where
  const
    | .tInt i => .int i
    | _ => .none
  enumParameter
    | _, _, .some i => .int i
    | _, _, v => v
  field _ v := v
  index _ v := v
  extract _ v := v
  other _ := .none
  holds
    | .conConst (.tInt i), .int j => i = j
    | .conEnum _ ef, .none => ef = efNone
    | .conEnum _ ef, .some _ => ef = efSome
    | _, _ => false
  isNull _ := false
  guard _ σ :=
    match σ 0 with
    | some (.int i) => 5 < i
    | _ => false

def optTyping : Typing optRuntime OptTy where
  con
    | .int, c => ∃ i, c = .conConst (.tInt i)
    | .option, c => c = .conEnum 0 efNone ∨ c = .conEnum 0 efSome
  sub
    | .option, .conEnum _ ⟨_, some _⟩ => [.int]
    | _, _ => []
  val
    | .int, v => ∃ i, v = .int i
    | .option, v => v = .none ∨ ∃ i, v = .some i
  sub_length := by
    rintro (_ | _) c h
    · obtain ⟨i, rfl⟩ := h; rfl
    · obtain rfl | rfl := h <;> rfl
  parts := by
    rintro (_ | _) c v h hv hc
    · obtain ⟨i, rfl⟩ := h; exact .nil
    · obtain rfl | rfl := h
      · exact .nil
      · obtain rfl | ⟨i, rfl⟩ := hv
        · cases hc
        · exact .cons ⟨i, rfl⟩ .nil
  equal_eq := by
    rintro (_ | _) c c' h h' he
    · obtain ⟨i, rfl⟩ := h
      obtain ⟨j, rfl⟩ := h'
      exact congrArg _ (of_decide_eq_true he)
    · obtain rfl | rfl := h <;> obtain rfl | rfl := h' <;> first | rfl | cases he
  exclusive := by
    rintro (_ | _) c c' v h h' he hv hc
    · obtain ⟨i, rfl⟩ := h
      obtain ⟨j, rfl⟩ := h'
      obtain ⟨k, rfl⟩ := hv
      obtain rfl : i = k := of_decide_eq_true hc
      exact decide_eq_false fun hj => by subst hj; simp [Con.equal] at he
    · obtain rfl | ⟨i, rfl⟩ := hv <;> obtain rfl | rfl := h <;> obtain rfl | rfl := h' <;>
        first | rfl | exact absurd hc Bool.false_ne_true | cases he
  null := nofun

def plainContext : MatcherContext := ⟨id, fun _ => .refl _, fun _ => false⟩

/-- `case Some(1 | 2): case Some(x) if (x > 5): case None:` -/
def optCases : List (Case × Pattern) :=
  [(⟨none, 0⟩, .patConstructor (.conEnum 0 efSome)
      [.patOr (.patConstructor (.conConst (.tInt 1)) []) (.patConstructor (.conConst (.tInt 2)) [])]),
   (⟨some 0, 1⟩, .patConstructor (.conEnum 0 efSome) [.patBind 0 .patAny]),
   (⟨none, 2⟩, .patConstructor (.conEnum 0 efNone) [])]

theorem optCases_ok : ∀ c ∈ optCases, CaseOk optTyping [.option] c := by
  have hsome : optTyping.con .option (.conEnum 0 efSome) := .inr rfl
  have hint (i : Int) : optTyping.con .int (.conConst (.tInt i)) := ⟨i, rfl⟩
  refine List.forall_mem_cons.2 ⟨⟨?_, ?_, by decide, nofun⟩, List.forall_mem_cons.2 ⟨⟨?_, ?_, by decide, ?_⟩,
    List.forall_mem_cons.2 ⟨⟨?_, ?_, by decide, nofun⟩, nofun⟩⟩⟩
  · exact ⟨hsome, nofun, ⟨⟨hint 1, nofun, trivial⟩, ⟨hint 2, nofun, trivial⟩⟩, trivial⟩
  · exact ⟨⟨trivial, trivial, .refl _⟩, trivial⟩
  · exact ⟨hsome, nofun, trivial, trivial⟩
  · exact ⟨trivial, trivial⟩
  · intro g _ σ σ' h
    show (match σ 0 with | some (.int i) => _ | _ => _) = (match σ' 0 with | some (.int i) => _ | _ => _)
    rw [h 0 (List.mem_singleton_self 0)]
  · exact ⟨.inl rfl, nofun, trivial⟩
  · trivial

def someEnv : Env OptVal := ⟨fun _ => .some 7, fun _ => none⟩

theorem compile_correct_option : ∃ dt, compile plainContext 1 [.tLocal 0] optCases = .ok dt ∧
    Selects optRuntime optCases [.some 7] (evalDt optRuntime someEnv dt) ∧
    (evalDt optRuntime someEnv dt = none ↔ ∀ c ∈ optCases, ¬ Accepts optRuntime c [.some 7]) := by
  obtain ⟨dt, hdt, h⟩ := compile_correct optTyping plainContext 1 [.tLocal 0] [.option] optCases nofun rfl
    (List.forall_mem_singleton.2 Nat.zero_lt_one) optCases_ok
  exact ⟨dt, hdt, h someEnv (.cons (.inr ⟨7, rfl⟩) .nil)⟩

/-- The values are integers, and every static is `1`. -/
def staticRuntime : Runtime Int where
  const _ := 0
  enumParameter _ _ v := v
  field _ v := v
  index _ v := v
  extract _ v := v
  other _ := 0
  holds
    | .conStatic _ _, v => v = 1
    | _, _ => false
  isNull _ := false
  guard _ _ := false

/-- `case A if (false): case B:` -/
def staticCases : List (Case × Pattern) :=
  [(⟨some 0, 0⟩, .patConstructor (.conStatic 0 0) []), (⟨none, 1⟩, .patConstructor (.conStatic 0 1) [])]

def oneEnv : Env Int := ⟨fun _ => 1, fun _ => none⟩

/-- Two statics of equal value are different constructors: when the guard of the first is false the
second is not tried, although its pattern matches and it has no guard. -/
theorem equal_statics_fail : ∃ dt, compile plainContext 1 [.tLocal 0] staticCases = .ok dt ∧
    evalDt staticRuntime oneEnv dt = none ∧ Accepts staticRuntime (⟨none, 1⟩, .patConstructor (.conStatic 0 1) []) [1] ∧
    ¬ Selects staticRuntime staticCases [1] (evalDt staticRuntime oneEnv dt) := by
  have haccepts : Accepts staticRuntime (⟨none, 1⟩, .patConstructor (.conStatic 0 1) []) [1] :=
    ⟨[], List.mem_singleton_self _, rfl⟩
  exact ⟨_, rfl, rfl, haccepts, fun hs => hs _ (by simp [staticCases]) haccepts⟩

end EvilHaxe.Matcher
