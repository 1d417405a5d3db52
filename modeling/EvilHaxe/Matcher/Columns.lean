/-
A column of the matrix: `compile_switch`, and `compile_extractors` where it gives up. The new locals of
`compile_extractors` are assigned where they are bound, or at their first use.
-/
import EvilHaxe.Matcher.Switch

namespace EvilHaxe.Matcher

variable {V : Type} {R : Runtime V} {Ty : Type} {T : PatternTyping R Ty}

/-! ## New locals -/

/-- New locals get the values of their expressions, which read older ones. -/
theorem bind_gens {n : Nat} : ∀ (binds : List (Nat × TExpr)) (ρ : Env V), (binds.map Prod.fst).Nodup →
    (∀ b ∈ binds, n ≤ b.1 ∧ b.2.Within (· < n) ∧ Plain b.2) →
    (∀ v, v ∉ binds.map Prod.fst → (ρ.bind R (gens binds)).locals v = ρ.locals v) ∧
      ∀ b ∈ binds, (ρ.bind R (gens binds)).locals b.1 = evalExpr R ρ b.2
  | [], _, _, _ => ⟨fun _ _ => rfl, nofun⟩
  | b :: binds, ρ, hn, hb => by
    obtain ⟨⟨hle, hw, hp⟩, hrest⟩ := List.forall_mem_cons.1 hb
    simp only [List.map_cons, List.nodup_cons] at hn
    obtain ⟨hother, hself⟩ := bind_gens binds (ρ.set (.gen b.1) (evalExpr R ρ b.2)) hn.2 hrest
    have hbind : ρ.bind R (gens (b :: binds)) = (ρ.set (.gen b.1) (evalExpr R ρ b.2)).bind R (gens binds) := by
      show ((ρ.run R b.2).set (.gen b.1) (evalExpr R ρ b.2)).bind R (gens binds) = _
      rw [run_plain hp]
    have hset : ρ.Agree (· < n) (ρ.set (.gen b.1) (evalExpr R ρ b.2)) := (agree_set ρ b.1 _).mono fun v hv =>
      Nat.lt_of_lt_of_le hv hle
    rw [hbind]
    refine ⟨fun v hv => ?_, List.forall_mem_cons.2 ⟨?_, fun b' hb' => ?_⟩⟩
    · simp only [List.map_cons, List.mem_cons, not_or] at hv
      rw [hother v hv.2]
      exact if_neg hv.1
    · rw [hother b.1 hn.1]
      exact if_pos rfl
    · rw [hself b' hb']
      exact evalExpr_agree hset (hrest b' hb').2.1

theorem lookup_append {w : Nat} {d' : Deferred} : ∀ d : Deferred,
    (d ++ d').lookup w = (d.lookup w).or (d'.lookup w)
  | [] => rfl
  | (v, e) :: d => by
    rw [List.cons_append, List.lookup_cons, List.lookup_cons]
    cases w == v with
    | true => rfl
    | false => exact lookup_append d

theorem mem_of_lookup {w : Nat} {e : TExpr} : ∀ {d : Deferred}, d.lookup w = some e → (w, e) ∈ d
  | (v, e') :: d, h => by
    rw [List.lookup_cons] at h
    by_cases hw : w = v
    · subst hw
      obtain rfl : e' = e := by simpa using h
      exact List.mem_cons_self ..
    · rw [beq_eq_false_iff_ne.2 hw] at h
      exact List.mem_cons_of_mem _ (mem_of_lookup h)

theorem lookup_isSome {w : Nat} : ∀ {d : Deferred}, w ∈ d.map Prod.fst → ∃ e, d.lookup w = some e
  | (v, e) :: d, h => by
    by_cases hw : w = v
    · exact ⟨e, by simp [hw]⟩
    · rw [List.map_cons, List.mem_cons] at h
      obtain ⟨e', he'⟩ := lookup_isSome (h.resolve_left hw)
      exact ⟨e', by rw [List.lookup_cons, beq_eq_false_iff_ne.2 hw]; exact he'⟩

/-! ## Extractors -/

section

variable {ctx : MatcherContext} {n : Nat} {t : Ty} {ts us : List Ty} {subject : TExpr} {subjects : List TExpr} {rows : List Row}
  {L : Nat → Prop} {A : Nat → TExpr → Prop} {d d' : Deferred} {c : ExtractorColumns}
  {compile : Nat → Deferred → List TExpr → List Row → Compiled}
  {P : Nat → Deferred → List TExpr → List Row → Env V → Prop}

theorem NewMatrix.values (h : NewMatrix T subject n t ts rows c us) (hsub : subject.Within (· < n))
    (hsubs : ∀ e ∈ subjects, e.Within (· < n)) (ρ : Env V) :
    (subject :: c.subjects ++ subjects).map (evalExpr R (ρ.bind R (gens c.binds))) =
      evalExpr R ρ subject :: c.subjects.map (evalExpr R (ρ.bind R (gens c.binds))) ++ subjects.map (evalExpr R ρ) := by
  have hsubjects : subjects.map (evalExpr R (ρ.bind R (gens c.binds))) = subjects.map (evalExpr R ρ) :=
    List.map_congr_left fun e he => evalExpr_agree (h.agree ρ) (hsubs e he)
  rw [List.map_append, hsubjects, List.map_cons, evalExpr_agree (h.agree ρ) hsub]

/-- The new matrix calls for what the old one calls for. -/
theorem NewMatrix.selects_iff (h : NewMatrix T subject n t ts rows c us)
    (hrows : ∀ r ∈ rows, FlatOk T (TExpr.Within (· < n)) (t :: ts) r) (hsub : subject.Within (· < n))
    (hsubs : ∀ e ∈ subjects, e.Within (· < n)) (hl : subjects.length = ts.length) (N : Prop)
    (ρ : Env V) (res : Option (Case × Env V)) :
    RowSelects R N (ρ.bind R (gens c.binds))
        ((subject :: c.subjects ++ subjects).map (evalExpr R (ρ.bind R (gens c.binds)))) c.cases res ↔
      RowSelects R N ρ ((subject :: subjects).map (evalExpr R ρ)) rows res := by
  have hsplits := h.splits hrows ρ (subjects.map (evalExpr R ρ)) (by rw [List.length_map, hl])
  rw [h.values hsub hsubs]
  constructor
  · exact rowSelects_forall₂ hsplits
  · refine rowSelects_forall₂ (hsplits.flip.imp fun r' r hr => ⟨fun q hq => ?_, fun β => ?_⟩)
    · rw [List.mem_singleton.1 hq]
      exact (hr.1 r' (List.mem_singleton_self _)).symm
    · have := hr.2 β
      simp only [List.mem_singleton, exists_eq_left] at this ⊢
      exact this.symm

/-- A column has an extractor only where they are allowed. -/
theorem extractors_of_column (hrows : ∀ r ∈ rows, FlatOk T (fun _ => True) (t :: ts) r) (hex : ¬ NoExtractor rows) :
    T.extractors := by
  by_contra hne
  refine hex fun r hr pat hpat => ?_
  obtain ⟨q, rest, hp, ht, -⟩ := (hrows r hr).uncons
  obtain rfl : q = pat := by simpa [hp] using hpat
  cases hfound : extractorOf (.tOther 0) [] q with
  | none => exact isExtractor_of_none hfound
  | some found =>
    obtain ⟨ex, pat, bindings⟩ := found
    obtain ⟨t', ht', -⟩ := (extractorOf_spec (T := T) q [] hfound).2.2.2.1 t ht
    exact absurd (T.extracted_allowed ht') hne

theorem NewMatrix.binds_ok (h : NewMatrix T subject n t ts rows c us) (hsub : subject.Within (· < n)) :
    ∀ b ∈ c.binds, n ≤ b.1 ∧ b.1 < n + c.binds.length ∧ b.2.Within (· < n) ∧ Plain b.2 := by
  intro b hb
  have hmem : b.1 ∈ List.range' n c.binds.length := h.fresh ▸ List.mem_map_of_mem hb
  obtain ⟨h1, h2⟩ := List.mem_range'_1.1 hmem
  obtain ⟨ex, he⟩ := h.extracts b hb
  rw [he]
  exact ⟨h1, h2, hsub, nofun⟩

theorem NewMatrix.lookup_binds (h : NewMatrix T subject n t ts rows c us) {v : Nat} (hv : v < n) :
    c.binds.lookup v = none := by
  cases hl : c.binds.lookup v with
  | none => rfl
  | some e =>
    have hmem : v ∈ List.range' n c.binds.length := h.fresh ▸ List.mem_map_of_mem (mem_of_lookup hl)
    have := (List.mem_range'_1.1 hmem).1
    omega

/-- Locals from `n` on are no longer in use. -/
theorem lookup_outside (n v : Nat) (d : Deferred) :
    (d.filter fun p => p.1 < n).lookup v = if v < n then d.lookup v else none := by
  simpa using lookup_filter (fun w => decide (w < n)) v d

theorem outside_sub (h : NewMatrix T subject n t ts rows c us) (hd : Deferred.Sub d' (c.binds ++ d)) :
    Deferred.Sub (d'.filter fun p => p.1 < n) d := by
  intro v e he
  rw [lookup_outside] at he
  split at he
  · rename_i hv
    have := hd v e he
    rwa [lookup_append, h.lookup_binds hv, Option.none_or] at this
  · cases he

/-- The new matrix is in the scope of the old one and of its own locals. -/
theorem subjectOk_of_extractor (hrows : ∀ r ∈ rows, FlatOk T (fun _ => True) (t :: ts) r) (hex : ¬ NoExtractor rows)
    (hin : InScope T ctx n L A d (t :: ts) (subject :: subjects) rows) :
    subject.Within (gained L d (markUsed subject d)) := by
  have hs : SubjectOk L d subject := by
    by_contra hs
    refine hex fun r hr pat hpat => ?_
    obtain ⟨pat', hpat', hfirst, -⟩ := hin.columns hrows r hr
    rw [Option.mem_unique hpat hpat', (hfirst.resolve_left hs).1]
    rfl
  rcases hs with hw | ⟨v, e1, rfl, hv⟩
  · exact hw.mono fun _ hv => .inl hv
  · exact .inr ⟨by rw [hv]; rfl, lookup_markUsed_self v d⟩

theorem NewMatrix.inScope (h : NewMatrix T subject n t ts rows c us)
    (hrows : ∀ r ∈ rows, FlatOk T (fun _ => True) (t :: ts) r) (hex : ¬ NoExtractor rows) (hsub : subject.Below n)
    (hin : InScope T ctx n L A d (t :: ts) (subject :: subjects) rows) :
    InScope T ctx (n + c.binds.length) (gained L d (markUsed subject d)) (fun v e => A v e ∨ (v, e) ∈ c.binds)
      (c.binds ++ markUsed subject d) (t :: us ++ ts) (subject :: c.subjects ++ subjects) c.cases := by
  have hgain := hin.gain (markUsed_sub subject d)
  have hsubject := subjectOk_of_extractor hrows hex hin
  have hready : Ready (gained L d (markUsed subject d)) A subject :=
    ⟨hsubject, fun v e1 he => absurd he (hsub.plain v e1)⟩
  refine ⟨⟨fun v hv => Nat.lt_add_right _ (hgain.scope.below v hv), fun v e he => ?_, fun v e he => ?_, fun hne =>
    absurd (extractors_of_column hrows hex) hne⟩, fun r hr => ?_, fun r hr => ?_⟩
  · rcases he with he | he
    · exact ⟨Nat.lt_add_right _ (hgain.scope.known v e he).1,
        (hgain.scope.known v e he).2.mono fun _ hx => Nat.lt_add_right _ hx⟩
    · obtain ⟨-, h2, h3, -⟩ := h.binds_ok hsub.within _ he
      exact ⟨h2, h3.mono fun _ hx => Nat.lt_add_right _ hx⟩
  · rw [lookup_append] at he
    cases hl : c.binds.lookup v with
    | none =>
      rw [hl, Option.none_or] at he
      exact ⟨.inl (hgain.scope.entries v e he).1, (hgain.scope.entries v e he).2⟩
    | some e1 =>
      rw [hl, Option.some_or] at he
      obtain rfl := Option.some.inj he
      obtain ⟨ex, hext⟩ := h.extracts _ (mem_of_lookup hl)
      have hext : e1 = .tExtract ex subject := hext
      rw [hext] at hl ⊢
      exact ⟨.inr (mem_of_lookup hl), hsubject⟩
  · obtain ⟨htypes, q, hq, pats, hpats, hlen⟩ := h.columns r hr
    refine .inr ⟨htypes, fun p hp => ?_⟩
    rw [hpats, List.zip_append (by rw [List.length_cons, h.length, hlen])] at hp
    rcases List.mem_append.1 hp with hp | hp
    · rcases List.mem_cons.1 (List.of_mem_zip hp).1 with he | he
      · rw [he]
        exact .inl (.inl hsubject)
      · obtain ⟨v, he, h1, h2⟩ := h.locals p.1 he
        have hmem : v ∈ c.binds.map Prod.fst := h.fresh ▸ List.mem_range'_1.2 ⟨h1, h2⟩
        obtain ⟨e1, he1⟩ := lookup_isSome hmem
        exact .inl (.inr ⟨v, e1, he, by rw [lookup_append, he1]; rfl⟩)
    · obtain ⟨-, -, -, hrest⟩ := hgain.columns hrows q hq
      rcases hrest p hp with (hw | ⟨v, e1, he, hv⟩) | hany
      · exact .inl (.inl hw)
      · have happ : (c.binds ++ markUsed subject d).lookup v = (c.binds.lookup v).or (some e1) := by
          rw [lookup_append, hv]
        cases hl : c.binds.lookup v with
        | none => exact .inl (.inr ⟨v, e1, he, by rw [happ, hl]; rfl⟩)
        | some e2 => exact .inl (.inr ⟨v, e2, he, by rw [happ, hl]; rfl⟩)
      · exact .inr hany
  · refine (h.rows_ok _ (hgain.flat hrows) hready r hr).mono fun e he => ⟨he.1, fun v e1 heq => .inl (he.2 v e1 heq)⟩

/-- The new locals that are assigned where they are bound hold their values, and the others are known. -/
theorem NewMatrix.holds (h : NewMatrix T subject n t ts rows c us)
    (hrows : ∀ r ∈ rows, FlatOk T (fun _ => True) (t :: ts) r) (hex : ¬ NoExtractor rows) (hsub : subject.Below n)
    (hin : InScope T ctx n L A d (t :: ts) (subject :: subjects) rows) (hd : Deferred.Sub d' (c.binds ++ markUsed subject d))
    {ρ ρ' : Env V} (hholds : Holds R (gained L d (d'.filter fun p => p.1 < n)) A ρ ρ') :
    Holds R (gained (gained L d (markUsed subject d)) (c.binds ++ markUsed subject d) d')
      (fun v e => A v e ∨ (v, e) ∈ c.binds) (ρ.bind R (assigned c.binds d')) (ρ'.bind R (gens c.binds)) := by
  have hok := h.binds_ok hsub.within
  have hnodup : (c.binds.map Prod.fst).Nodup := h.fresh ▸ List.nodup_range'
  have hall := bind_gens (R := R) (n := n) c.binds ρ' hnodup fun b hb => ⟨(hok b hb).1, (hok b hb).2.2⟩
  have hsome := bind_gens (R := R) (n := n) (c.binds.filter fun b => (d'.lookup b.1).isNone) ρ
    (hnodup.sublist (List.filter_sublist.map Prod.fst))
    fun b hb => ⟨(hok b (List.mem_of_mem_filter hb)).1, (hok b (List.mem_of_mem_filter hb)).2.2⟩
  have hold : ∀ v, gained L d (markUsed subject d) v → gained L d (d'.filter fun p => p.1 < n) v :=
    gained_mono (outside_sub h hd)
  have hsubject := subjectOk_of_extractor hrows hex hin
  have hbelow : ∀ v, gained L d (markUsed subject d) v → v < n := (hin.gain (markUsed_sub subject d)).scope.below
  have hbefore : ∀ binds' : List (Nat × TExpr), (∀ b ∈ binds', b ∈ c.binds) → ∀ v < n, v ∉ binds'.map Prod.fst := by
    intro binds' hsub' v hv hmem
    obtain ⟨b, hb, rfl⟩ := List.mem_map.1 hmem
    have := (hok b (hsub' b hb)).1
    omega
  refine ⟨fun v hv => ?_, fun v e hve => ?_⟩
  · by_cases hlt : v < n
    · have hg : gained L d (d'.filter fun p => p.1 < n) v := by
        rcases hv with hv | ⟨h1, h2⟩
        · exact hold v hv
        · rw [lookup_append, h.lookup_binds hlt, Option.none_or] at h1
          obtain ⟨e, he⟩ := Option.isSome_iff_exists.1 h1
          exact .inr ⟨by rw [markUsed_sub subject d v e he]; rfl, by rw [lookup_outside, if_pos hlt, h2]⟩
      calc (ρ.bind R (assigned c.binds d')).locals v
          = ρ.locals v := hsome.1 v (hbefore _ (fun b => List.mem_of_mem_filter) v hlt)
        _ = ρ'.locals v := hholds.agree v hg
        _ = (ρ'.bind R (gens c.binds)).locals v := (hall.1 v (hbefore _ (fun b => id) v hlt)).symm
    · rcases hv with hv | ⟨h1, h2⟩
      · exact absurd (hbelow v hv) hlt
      · -- a new local that is assigned where it is bound
        obtain ⟨e, he⟩ : ∃ e, c.binds.lookup v = some e := by
          rw [lookup_append] at h1
          cases hl : c.binds.lookup v with
          | some e => exact ⟨e, rfl⟩
          | none =>
            rw [hl, Option.none_or] at h1
            obtain ⟨e, he⟩ := Option.isSome_iff_exists.1 h1
            have hA := (hin.scope.entries v e (markUsed_sub subject d v e he)).1
            exact absurd (hin.scope.known v e hA).1 hlt
        have hmem := mem_of_lookup he
        obtain ⟨ex, hext⟩ := h.extracts _ hmem
        have hext : e = .tExtract ex subject := hext
        have hwithin : e.Within (gained L d (d'.filter fun p => p.1 < n)) := by
          rw [hext]
          exact hsubject.mono hold
        calc (ρ.bind R (assigned c.binds d')).locals v
            = evalExpr R ρ e := hsome.2 (v, e) (List.mem_filter.2 ⟨hmem, by rw [h2]; rfl⟩)
          _ = evalExpr R ρ' e := hholds.eval hwithin
          _ = (ρ'.bind R (gens c.binds)).locals v := (hall.2 (v, e) hmem).symm
  · rcases hve with hA | hmem
    · obtain ⟨hv, he⟩ := hin.scope.known v e hA
      rw [h.agree ρ' v hv, evalExpr_agree (h.agree ρ') he]
      exact hholds.known v e hA
    · rw [hall.2 (v, e) hmem, evalExpr_agree (h.agree ρ') (hok (v, e) hmem).2.2.1]

/-- `compile_extractors` hands the new matrix to `compile`, and binds the new locals around its tree. -/
theorem compileExtractors_eq {c : ExtractorColumns} {dt : Dt}
    (hc : extractorLoop subject (findExtractors subject 0 rows).1 n [] (findExtractors subject 0 rows).2 = .ok c)
    (hdt : compile (n + c.binds.length) (c.binds ++ markUsed subject d) (subject :: c.subjects ++ subjects) c.cases =
      .ok (dt, d')) :
    compileExtractors compile n d (subject :: subjects) rows =
      .ok (.bind (assigned c.binds d') dt, d'.filter fun p => p.1 < n) := by
  unfold compileExtractors
  simp only [hc]
  show Except.bind (compile (n + c.binds.length) (c.binds ++ markUsed subject d) (subject :: c.subjects ++ subjects)
    c.cases) _ = _
  rw [hdt]
  rfl

/-- `compile_extractors` on a prepared matrix with an extractor. -/
theorem compileExtractors_correct (d : Deferred)
    (hrows : ∀ r ∈ rows, FlatOk T (fun _ => True) (t :: ts) r) (hex : ¬ NoExtractor rows)
    (hl : subjects.length = ts.length) (hsub : subject.Below n) (hsubs : ∀ e ∈ subjects, e.Below n)
    (hrec : CorrectBelow T ctx compile P (fuelNeed (subjects.length + 1) (rowsWeight rows))) :
    Compiles T ctx (InOrderColumn R ctx P n d (subject :: subjects) rows) n d (t :: ts) (subject :: subjects) rows
      (compileExtractors compile n d (subject :: subjects) rows) := by
  obtain ⟨c, us, hc, hnew⟩ := extractors_spec hrows hsub.within hex
  have hle : n ≤ n + c.binds.length := Nat.le_add_right ..
  have hmatrix : MatrixOk T (n + c.binds.length) (t :: us ++ ts) (subject :: c.subjects ++ subjects) c.cases := by
    refine ⟨?_, fun e he => ?_, hnew.rows_ok _ hrows trivial⟩
    · simp only [List.cons_append, List.length_cons, List.length_append, hnew.length, hl]
    · rcases List.mem_append.1 he with he | he
      · rcases List.mem_cons.1 he with rfl | he
        · exact hsub.mono hle
        · obtain ⟨v, rfl, -, hv⟩ := hnew.locals e he
          exact hv
      · exact (hsubs e he).mono hle
  have hfuel : fuelNeed (subject :: c.subjects ++ subjects).length (rowsWeight c.cases) <
      fuelNeed (subjects.length + 1) (rowsWeight rows) := by
    refine fuelNeed_lighter hnew.lighter ?_
    have := hnew.few
    rw [List.length_append, List.length_cons, hnew.length]
    omega
  obtain ⟨dt, d', hdt, hd, hcorrect⟩ := hrec _ (c.binds ++ markUsed subject d) _ _ _ hmatrix hfuel
  refine ⟨_, _, compileExtractors_eq hc hdt, (outside_sub hnew hd).trans (markUsed_sub subject d),
    fun L A hin ρ ρ' hholds hval horder => ?_⟩
  obtain ⟨hv, hvs⟩ := List.forall₂_cons.1 hval
  have hsubs' : ∀ e ∈ subjects, e.Within (· < n) := fun e he => (hsubs e he).within
  have hflat : ∀ r ∈ rows, FlatOk T (TExpr.Within (· < n)) (t :: ts) r := fun r hr =>
    (hin.flat hrows r hr).mono fun _ he => he.1.mono hin.scope.below
  refine (hnew.selects_iff hflat hsub.within hsubs' hl T.nulls ρ' _).1 ?_
  refine hcorrect _ _ (hnew.inScope hrows hex hsub hin) _ _ (hnew.holds hrows hex hsub hin hd hholds) ?_
    fun hn => (horder hn).2 hex c hc
  rw [hnew.values hsub.within hsubs']
  exact .cons hv (List.rel_append (hnew.vals ρ' hv) hvs)

/-- `compile_switch`, and `compile_extractors` where it gives up. -/
theorem compileColumn_correct (d : Deferred)
    (hrows : ∀ r ∈ rows, FlatOk T (fun _ => True) (t :: ts) r)
    (hl : subjects.length = ts.length) (hsub : subject.Below n) (hsubs : ∀ e ∈ subjects, e.Below n)
    (hrec : CorrectBelow T ctx compile P (fuelNeed (subjects.length + 1) (rowsWeight rows))) (hempty : rows ≠ []) :
    Compiles T ctx (InOrderColumn R ctx P n d (subject :: subjects) rows) n d (t :: ts) (subject :: subjects) rows
      (compileColumn ctx compile n d (subject :: subjects) rows) := by
  unfold compileColumn
  by_cases hex : NoExtractor rows
  · obtain ⟨dt, d', hdt, hd, hcorrect⟩ := compileSwitch_correct d hrows hex hl hsub hsubs hrec
    refine ⟨dt, d', by rw [hdt], hd, fun L A hin ρ ρ' hholds hval horder => ?_⟩
    have hs := hcorrect L A hin (fun h => absurd h hempty) ρ ρ' hholds hval fun hn => ((horder hn).1 hex).2
    cases hnull : R.isNull (evalExpr R ρ' subject) with
    | false => exact hs.other hnull
    | true => exact rowSelects_of_nullFirst hrows (fun hn => ((horder (.inl hn)).1 hex).1 hnull) (hs.null hnull)
  · have hswitch : compileSwitch ctx compile n d (subject :: subjects) rows = .error .extractor := by
      unfold compileSwitch
      show Except.bind (getColumnSigma subject rows ([], [])) _ = _
      rw [getColumnSigma_extractor subject rows _ hrows hex]
      rfl
    rw [hswitch]
    exact compileExtractors_correct d hrows hex hl hsub hsubs hrec

end

end EvilHaxe.Matcher
