/-
`compile_extractors`: the matrix with a column for each extractor has the matches of the old one, in the
environment in which the new locals hold the values of the extractors.
-/
import EvilHaxe.Matcher.Column

namespace EvilHaxe.Matcher

variable {V : Type} {R : Runtime V} {Ty : Type} {T : PatternTyping R Ty}

/-! ## A pattern among wildcards -/

/-- A column list split at a column. -/
theorem exists_split {α : Type} {A : List α} {i k : Nat} {w : α} (hA : A.length = i + 1 + k) (hw : A[i]? = some w) :
    ∃ A1 A2, A = A1 ++ w :: A2 ∧ A1.length = i ∧ A2.length = k := by
  obtain ⟨hi, hget⟩ := List.getElem?_eq_some_iff.1 hw
  refine ⟨A.take i, A.drop (i + 1), ?_, ?_, ?_⟩
  · rw [← hget, ← List.drop_eq_getElem_cons, List.take_append_drop]
  · rw [List.length_take]
    omega
  · rw [List.length_drop]
    omega

theorem mem_matchAll_offset {i k : Nat} {pat : Pattern} {rest : List Pattern} {A vs : List V} {w : V}
    (hA : A.length = i + 1 + k) (hw : A[i]? = some w) {β : List (Nat × V)} :
    β ∈ matchAll R (makeOffsetList i k pat .patAny ++ rest) (A ++ vs) ↔
      β ∈ matchAll R (pat :: rest) (w :: vs) := by
  obtain ⟨A1, A2, rfl, rfl, rfl⟩ := exists_split hA hw
  have hright : ∀ β, β ∈ matchAll R (List.replicate A2.length .patAny ++ rest) (A2 ++ vs) ↔
      β ∈ matchAll R rest vs := fun β => by
    rw [mem_matchAll_append R (List.length_replicate ..), matchAll_replicate]
    simp
  have hlist : makeOffsetList A1.length A2.length pat .patAny ++ rest =
      List.replicate A1.length .patAny ++ (pat :: (List.replicate A2.length .patAny ++ rest)) := by
    simp [makeOffsetList]
  rw [hlist, List.append_assoc, List.cons_append, mem_matchAll_append R (List.length_replicate ..),
    matchAll_replicate]
  simp only [List.mem_singleton, exists_eq_left, List.nil_append, exists_eq_right', mem_matchAll_cons, hright]

theorem fitsAll_offset {i k : Nat} {pat : Pattern} {rest : List Pattern} {A ts : List Ty} {t : Ty}
    (hA : A.length = i + 1 + k) (ht : A[i]? = some t) (hpat : Fits T pat t) (hrest : FitsAll T rest ts) :
    FitsAll T (makeOffsetList i k pat .patAny ++ rest) (A ++ ts) := by
  obtain ⟨A1, A2, rfl, rfl, rfl⟩ := exists_split hA ht
  have hlist : makeOffsetList A1.length A2.length pat .patAny ++ rest =
      List.replicate A1.length .patAny ++ (pat :: (List.replicate A2.length .patAny ++ rest)) := by
    simp [makeOffsetList]
  rw [hlist, List.append_assoc, List.cons_append]
  refine fitsAll_append (fitsAll_replicate A1) ?_
  simp only [FitsAll]
  exact ⟨hpat, fitsAll_append (fitsAll_replicate A2) hrest⟩

theorem patsVars_offset (i k : Nat) (pat : Pattern) (rest : List Pattern) :
    patsVars (makeOffsetList i k pat .patAny ++ rest) = patVars pat ++ patsVars rest := by
  simp [makeOffsetList, patsVars_append, patsVars_replicate, patsVars]

theorem weightAll_offset (i k : Nat) (pat : Pattern) (rest : List Pattern) :
    weightAll (makeOffsetList i k pat .patAny ++ rest) = weightAll (pat :: rest) := by
  simp [makeOffsetList, weightAll_append, weightAll_replicate, weightAll]

theorem varsOkAll_offset {i k : Nat} {pat : Pattern} {rest : List Pattern} (hpat : VarsOk pat)
    (hrest : VarsOkAll rest) : VarsOkAll (makeOffsetList i k pat .patAny ++ rest) := by
  refine varsOkAll_iff.2 fun q hq => ?_
  rcases List.mem_append.1 hq with hq | hq
  · rcases List.mem_append.1 hq with hq | hq
    · rcases List.mem_append.1 hq with hq | hq
      · rw [List.eq_of_mem_replicate hq]; trivial
      · rw [List.mem_singleton.1 hq]; exact hpat
    · rw [List.eq_of_mem_replicate hq]; trivial
  · exact varsOkAll_iff.1 hrest q hq

/-! ## The extractor of a row -/

/-- What is known of the extractor under the bindings of a pattern. -/
theorem extractorOf_spec {subject : TExpr} {ex : Nat} {q : Pattern} {b' : List (Nat × TExpr)} :
    ∀ (pat : Pattern) (b : List (Nat × TExpr)), extractorOf subject b pat = some (ex, q, b') →
      weight pat = weight q + 1 ∧ (VarsOk pat → VarsOk q) ∧
      ((b'.map Prod.fst ++ patVars q).Perm (b.map Prod.fst ++ patVars pat)) ∧
      (∀ t, Fits T pat t → ∃ t', T.extracted t ex = some t' ∧ Fits T q t') ∧
      (∀ B : TExpr → Prop, B subject → (∀ x ∈ b, B x.2) → ∀ x ∈ b', B x.2)
  | .patExtractor ex pat, b, h => by
    obtain ⟨rfl, rfl, rfl⟩ : ex = _ ∧ pat = _ ∧ b = _ := by simpa [extractorOf] using h
    refine ⟨rfl, id, .refl _, fun t ht => ?_, fun n _ hb => hb⟩
    simpa only [Fits] using ht
  | .patBind x pat, b, h => by
    obtain ⟨h1, h2, h3, h4, h5⟩ := extractorOf_spec pat ((x, subject) :: b) h
    refine ⟨h1, h2, h3.trans List.perm_middle.symm, fun t ht => h4 t (by simpa only [Fits] using ht), ?_⟩
    exact fun n hs hb => h5 n hs (List.forall_mem_cons.2 ⟨hs, hb⟩)

/-- The pattern matches as the extractor's does against the extracted value. -/
theorem extractorOf_alt {ρ : Env V} {subject : TExpr} {ex : Nat} {q : Pattern} {b' bindings : List (Nat × TExpr)}
    {rest : List Pattern} {vs : List V} {β : List (Nat × V)} :
    ∀ (pat : Pattern) (b : List (Nat × TExpr)), extractorOf subject b pat = some (ex, q, b') →
      ((∃ β0 ∈ matchAll R (pat :: rest) (evalExpr R ρ subject :: vs),
          β.Perm (bindValues R ρ (b ++ bindings) ++ β0)) ↔
        ∃ β0 ∈ matchAll R (q :: rest) (R.extract ex (evalExpr R ρ subject) :: vs),
          β.Perm (bindValues R ρ (b' ++ bindings) ++ β0))
  | .patExtractor ex pat, b, h => by
    obtain ⟨rfl, rfl, rfl⟩ : ex = _ ∧ pat = _ ∧ b = _ := by simpa [extractorOf] using h
    simp only [mem_matchAll_cons, patMatches]
  | .patBind x pat, b, h => by
    rw [bindAlt_iff]
    exact extractorOf_alt pat ((x, subject) :: b) h

/-! ## The pass over the rows -/

/-- The extractors are numbered from `k + 1` to `num`. -/
def Marked (subject : TExpr) (num : Nat) : Nat → List (Row × Option RowExtractor) → Prop
  | k, [] => k = num
  | k, (r, none) :: l => r.patterns.head?.bind (extractorOf subject []) = none ∧ Marked subject num k l
  | k, (r, some ex) :: l => ex.i = k + 1 ∧
      r.patterns.head?.bind (extractorOf subject []) = some (ex.ex, ex.pat, ex.bindings) ∧
      Marked subject num (k + 1) l

theorem Marked.le {subject : TExpr} {num : Nat} : ∀ {l : List (Row × Option RowExtractor)} {k : Nat},
    Marked subject num k l → k ≤ num ∧ num ≤ k + l.length
  | [], k, h => by
    obtain rfl : k = num := h
    exact ⟨Nat.le_refl _, Nat.le_add_right ..⟩
  | (_, none) :: l, k, ⟨_, h⟩ => by
    obtain ⟨h1, h2⟩ := Marked.le (l := l) h
    exact ⟨h1, by rw [List.length_cons]; omega⟩
  | (_, some _) :: l, k, ⟨_, _, h⟩ => by
    obtain ⟨h1, h2⟩ := Marked.le (l := l) h
    exact ⟨by omega, by rw [List.length_cons]; omega⟩

theorem findExtractors_spec (subject : TExpr) : ∀ (rows : List Row) (i : Nat),
    Marked subject (findExtractors subject i rows).1 i (findExtractors subject i rows).2 ∧
      (findExtractors subject i rows).2.map Prod.fst = rows
  | [], _ => ⟨rfl, rfl⟩
  | r :: rows, i => by
    unfold findExtractors
    split
    · rename_i ex pat bindings h
      obtain ⟨h1, h2⟩ := findExtractors_spec subject rows (i + 1)
      exact ⟨⟨rfl, h, h1⟩, congrArg (r :: ·) h2⟩
    · rename_i h
      obtain ⟨h1, h2⟩ := findExtractors_spec subject rows i
      exact ⟨⟨h, h1⟩, congrArg (r :: ·) h2⟩

/-- An extractor column: its local, and the extractor whose value it holds. -/
abbrev ExtractorColumn := TExpr × Nat

/-- The row with the pattern of its extractor in the column `i` of `num` new ones. -/
def extractorRow (num i : Nat) (r : Row) (ex : RowExtractor) (rest : List Pattern) : Row :=
  ⟨r.case, ex.bindings ++ r.bindings, makeOffsetList i (num - i) ex.pat .patAny ++ rest⟩

/-- A row of the new matrix: the pattern of the old row's extractor stands in a column of that extractor,
and the row of an extractor is lighter. -/
def NewRow (cols : List ExtractorColumn) : Row × Option RowExtractor → Row → Prop
  | (r, none), r' => ∃ pat rest, r.patterns = pat :: rest ∧
      r' = { r with patterns := makeOffsetList 0 cols.length pat .patAny ++ rest }
  | (r, some ex), r' => ∃ pat rest j s, r.patterns = pat :: rest ∧ cols[j]? = some (s, ex.ex) ∧
      r' = extractorRow cols.length (j + 1) r ex rest

/-- The new locals in a `Bind` node. -/
def gens (binds : List (Nat × TExpr)) : List (TVar × TExpr) := binds.map fun b => (.gen b.1, b.2)

/-- The columns are locals from `m` on and below `n`, which hold the values of the extractors. -/
def ColumnsHold (R : Runtime V) (subject : TExpr) (m n : Nat) (ρ : Env V) (cols : List ExtractorColumn) : Prop :=
  ∀ c ∈ cols, ∃ v, c.1 = .tLocal v ∧ m ≤ v ∧ v < n ∧ ρ.locals v = R.extract c.2 (evalExpr R ρ subject)

/-- What the loop makes from some rows on, when the columns `prev` are there already. -/
structure LoopOk (R : Runtime V) (subject : TExpr) (m num n : Nat) (prev : List ExtractorColumn)
    (l : List (Row × Option RowExtractor)) (c : ExtractorColumns) (cols : List ExtractorColumn) : Prop where
  subjects : c.subjects = cols.map Prod.fst
  length : (prev ++ cols).length = num
  rows : List.Forall₂ (NewRow (prev ++ cols)) l c.cases
  marked : ∀ col ∈ cols, ∃ p ∈ l, ∃ ex, p.2 = some ex ∧ ex.ex = col.2
  fresh : c.binds.map Prod.fst = List.range' n c.binds.length
  extracts : ∀ b ∈ c.binds, ∃ ex, b.2 = .tExtract ex subject
  hold : ∀ ρ : Env V, ColumnsHold R subject m n ρ prev → ρ.Agree (· < n) (ρ.bind R (gens c.binds)) ∧
    ColumnsHold R subject m (n + c.binds.length) (ρ.bind R (gens c.binds)) (prev ++ cols)

/-- The table knows the columns that are there. -/
def LutOk (subject : TExpr) (prev : List ExtractorColumn) (lut : List (TExpr × TExpr × Nat)) : Prop :=
  ∀ e1 s i, lut.lookup e1 = some (s, i) → ∃ j ex, i = j + 1 ∧ e1 = .tExtract ex subject ∧ prev[j]? = some (s, ex)

theorem LutOk.snoc {subject : TExpr} {prev : List ExtractorColumn} {lut : List (TExpr × TExpr × Nat)}
    (h : LutOk subject prev lut) (col : ExtractorColumn) : LutOk subject (prev ++ [col]) lut := by
  intro e1 s i hlook
  obtain ⟨j, ex, hi, he, hj⟩ := h e1 s i hlook
  refine ⟨j, ex, hi, he, ?_⟩
  rw [List.getElem?_append_left (List.getElem?_eq_some_iff.1 hj).1]
  exact hj

theorem LutOk.cons {subject : TExpr} {prev : List ExtractorColumn} {lut : List (TExpr × TExpr × Nat)}
    (h : LutOk subject prev lut) (s : TExpr) (ex : Nat) :
    LutOk subject (prev ++ [(s, ex)]) ((.tExtract ex subject, s, prev.length + 1) :: lut) := by
  intro e1 s' i hlook
  rw [List.lookup_cons] at hlook
  by_cases he : e1 = .tExtract ex subject
  · rw [beq_iff_eq.2 he] at hlook
    obtain ⟨rfl, rfl⟩ := Prod.mk.inj (Option.some.inj hlook)
    exact ⟨prev.length, ex, rfl, he, by simp⟩
  · rw [beq_eq_false_iff_ne.2 he] at hlook
    exact h.snoc (s, ex) e1 s' i hlook

theorem ColumnsHold.snoc {subject : TExpr} {m n : Nat} {ρ : Env V} {prev : List ExtractorColumn}
    (h : ColumnsHold R subject m n ρ prev) {v x : Nat} (hm : m ≤ v) (hn : v < n)
    (hv : ρ.locals v = R.extract x (evalExpr R ρ subject)) :
    ColumnsHold R subject m n ρ (prev ++ [(.tLocal v, x)]) := by
  intro c hc
  rcases List.mem_append.1 hc with hc | hc
  · exact h c hc
  · rw [List.mem_singleton.1 hc]
    exact ⟨v, rfl, hm, hn, hv⟩

/-- Setting a new local keeps the others. -/
theorem agree_set (ρ : Env V) (n : Nat) (v : V) : ρ.Agree (· < n) (ρ.set (.gen n) v) :=
  fun _ hv => if_neg (Nat.ne_of_lt hv)

theorem ColumnsHold.set {subject : TExpr} {m n : Nat} (hsub : subject.Within (· < m)) (hm : m ≤ n) {ρ : Env V}
    {prev : List ExtractorColumn} (h : ColumnsHold R subject m n ρ prev) (v : V) :
    ColumnsHold R subject m (n + 1) (ρ.set (.gen n) v) prev := by
  intro c hc
  obtain ⟨w, hw, hmw, hwn, hval⟩ := h c hc
  have hagree := agree_set ρ n v
  refine ⟨w, hw, hmw, Nat.lt_succ_of_lt hwn, ?_⟩
  rw [hagree w hwn, hval, evalExpr_agree (hagree.mono fun x hx => Nat.lt_of_lt_of_le hx hm) hsub]

theorem extractorLoop_spec {subject : TExpr} {m num : Nat} (hsub : subject.Within (· < m)) :
    ∀ (l : List (Row × Option RowExtractor)) (n : Nat) (lut : List (TExpr × TExpr × Nat))
      (prev : List ExtractorColumn), m ≤ n → (∀ p ∈ l, p.1.patterns ≠ []) → Marked subject num prev.length l →
      (∀ col ∈ prev, ∃ v, col.1 = .tLocal v) → LutOk subject prev lut →
      ∃ c cols, extractorLoop subject num n lut l = .ok c ∧ LoopOk R subject m num n prev l c cols
  | [], n, lut, prev, hm, _, hmarked, _, hlut => by
    have hnum : prev.length = num := hmarked
    refine ⟨⟨[], [], []⟩, [], rfl, rfl, by rwa [List.append_nil], .nil, nofun, rfl, nofun,
      fun ρ hprev => ⟨fun _ _ => rfl, ?_⟩⟩
    rw [List.append_nil]
    exact hprev
  | (r, none) :: l, n, lut, prev, hm, hne, ⟨_, hmarked⟩, hprev, hlut => by
    obtain ⟨hr, hl⟩ := List.forall_mem_cons.1 hne
    obtain ⟨pat, rest, hp⟩ := List.exists_cons_of_ne_nil hr
    have hp : r.patterns = pat :: rest := hp
    obtain ⟨c, cols, hc, ok⟩ := extractorLoop_spec hsub l n lut prev hm hl hmarked hprev hlut
    have hrow : NewRow (prev ++ cols) (r, none)
        { r with patterns := makeOffsetList 0 num pat .patAny ++ rest } := ⟨pat, rest, hp, by rw [ok.length]⟩
    refine ⟨⟨_ :: c.cases, c.subjects, c.binds⟩, cols, ?_, ok.subjects, ok.length, .cons hrow ok.rows,
      fun col hcol => ?_, ok.fresh, ok.extracts, ok.hold⟩
    · simp only [extractorLoop, hp, hc]
      rfl
    · obtain ⟨p, hp, h⟩ := ok.marked col hcol
      exact ⟨p, List.mem_cons_of_mem _ hp, h⟩
  | (r, some ex) :: l, n, lut, prev, hm, hne, ⟨hi, hex, hmarked⟩, hprev, hlut => by
    obtain ⟨hr, hl⟩ := List.forall_mem_cons.1 hne
    obtain ⟨pat, rest, hp⟩ := List.exists_cons_of_ne_nil hr
    have hp : r.patterns = pat :: rest := hp
    have hmarked' : ∀ col : ExtractorColumn, Marked subject num (prev ++ [col]).length l := fun col => by
      rwa [List.length_append]
    have hprev' : ∀ v : Nat, ∀ col ∈ prev ++ [(TExpr.tLocal v, ex.ex)], ∃ v, col.1 = .tLocal v := by
      intro v col hcol
      rcases List.mem_append.1 hcol with hcol | hcol
      · exact hprev col hcol
      · exact ⟨v, by rw [List.mem_singleton.1 hcol]⟩
    have hnew : ∀ {cols : List ExtractorColumn} {j : Nat} {s : TExpr}, cols.length = num → cols[j]? = some (s, ex.ex) →
        NewRow cols (r, some ex) (extractorRow num (j + 1) r ex rest) :=
      fun hlen hj => ⟨pat, rest, _, _, hp, hj, by rw [hlen]⟩
    have hmark : ∀ {s : TExpr} {cols : List ExtractorColumn}, (∀ col ∈ cols, ∃ p ∈ l, ∃ ex, p.2 = some ex ∧ ex.ex = col.2) →
        ∀ col ∈ (s, ex.ex) :: cols, ∃ p ∈ (r, some ex) :: l, ∃ ex, p.2 = some ex ∧ ex.ex = col.2 := by
      intro s cols h
      refine List.forall_mem_cons.2 ⟨⟨_, List.mem_cons_self .., ex, rfl, rfl⟩, fun col hcol => ?_⟩
      obtain ⟨p, hp, h⟩ := h col hcol
      exact ⟨p, List.mem_cons_of_mem _ hp, h⟩
    cases hlook : lut.lookup (.tExtract ex.ex subject) with
    | none =>
      -- the first row with this extractor makes the local
      obtain ⟨c, cols, hc, ok⟩ := extractorLoop_spec hsub l (n + 1)
        ((.tExtract ex.ex subject, .tLocal n, prev.length + 1) :: lut) (prev ++ [(.tLocal n, ex.ex)])
        (Nat.le_succ_of_le hm) hl (hmarked' _) (hprev' n) (hlut.cons (.tLocal n) ex.ex)
      have hcols : prev ++ (.tLocal n, ex.ex) :: cols = prev ++ [(.tLocal n, ex.ex)] ++ cols := by simp
      refine ⟨⟨extractorRow num (prev.length + 1) r ex rest :: c.cases, .tLocal n :: c.subjects,
        (n, .tExtract ex.ex subject) :: c.binds⟩, (.tLocal n, ex.ex) :: cols, ?_,
        congrArg (TExpr.tLocal n :: ·) ok.subjects, ?_, ?_, hmark ok.marked, ?_,
        List.forall_mem_cons.2 ⟨⟨_, rfl⟩, ok.extracts⟩, fun ρ hprev => ?_⟩
      · simp only [extractorLoop, hp, hlook, hc, hi]
        rfl
      · rw [hcols]
        exact ok.length
      · rw [hcols]
        exact .cons (hnew (s := .tLocal n) ok.length (by simp)) ok.rows
      · rw [List.map_cons, ok.fresh, List.length_cons, List.range'_succ]
      · have hset := agree_set ρ n (evalExpr R ρ (.tExtract ex.ex subject))
        have hsubject := evalExpr_agree (R := R) (hset.mono fun x hx => Nat.lt_of_lt_of_le hx hm) hsub
        have hfirst := (hprev.set hsub hm (evalExpr R ρ (.tExtract ex.ex subject))).snoc (x := ex.ex) hm
          (Nat.lt_succ_self n) (by rw [hsubject]; exact if_pos rfl)
        obtain ⟨hagree, hhold⟩ := ok.hold _ hfirst
        refine ⟨fun v hv => (hagree v (Nat.lt_succ_of_lt hv)).trans (hset v hv), ?_⟩
        rw [hcols, List.length_cons, Nat.add_comm _ 1, ← Nat.add_assoc]
        exact hhold
    | some p =>
      -- the column repeats the local of an earlier row
      obtain ⟨s, i⟩ := p
      obtain ⟨j, ex', rfl, he, hj⟩ := hlut _ s i hlook
      obtain ⟨rfl, -⟩ := TExpr.tExtract.inj he
      obtain ⟨w, rfl⟩ : ∃ w, s = .tLocal w := hprev _ (List.mem_of_getElem? hj)
      obtain ⟨c, cols, hc, ok⟩ := extractorLoop_spec hsub l n lut (prev ++ [(.tLocal w, ex.ex)]) hm hl (hmarked' _)
        (hprev' w) (hlut.snoc _)
      have hcols : prev ++ (.tLocal w, ex.ex) :: cols = prev ++ [(.tLocal w, ex.ex)] ++ cols := by simp
      refine ⟨⟨extractorRow num (j + 1) r ex rest :: c.cases, .tLocal w :: c.subjects, c.binds⟩,
        (.tLocal w, ex.ex) :: cols, ?_, congrArg (TExpr.tLocal w :: ·) ok.subjects, ?_, ?_, hmark ok.marked, ok.fresh,
        ok.extracts, fun ρ hprev => ?_⟩
      · simp only [extractorLoop, hp, hlook, hc]
        rfl
      · rw [hcols]
        exact ok.length
      · rw [hcols]
        refine .cons (hnew (s := .tLocal w) ok.length ?_) ok.rows
        rw [List.append_assoc, List.getElem?_append_left (List.getElem?_eq_some_iff.1 hj).1]
        exact hj
      · obtain ⟨w', hw', hmw, hwn, hval⟩ := hprev _ (List.mem_of_getElem? hj)
        obtain rfl : w = w' := TExpr.tLocal.inj hw'
        rw [hcols]
        exact ok.hold ρ (hprev.snoc hmw hwn hval)

/-! ## The new matrix -/

theorem Marked.found {subject : TExpr} {num : Nat} : ∀ {l : List (Row × Option RowExtractor)} {k : Nat},
    Marked subject num k l → ∀ p ∈ l,
      p.1.patterns.head?.bind (extractorOf subject []) = p.2.map fun ex => (ex.ex, ex.pat, ex.bindings)
  | (_, none) :: l, k, ⟨hex, h⟩, p, hp => by
    rcases List.mem_cons.1 hp with rfl | hp
    · exact hex
    · exact Marked.found h p hp
  | (_, some _) :: l, k, ⟨_, hex, h⟩, p, hp => by
    rcases List.mem_cons.1 hp with rfl | hp
    · exact hex
    · exact Marked.found h p hp

theorem isExtractor_of_none {subject : TExpr} : ∀ {p : Pattern} {b : List (Nat × TExpr)},
    extractorOf subject b p = none → isExtractor p = false
  | .patBind _ pat, _, h => isExtractor_of_none (p := pat) h
  | .patAny, _, _ | .patOr _ _, _, _ | .patTuple _, _, _ | .patConstructor _ _, _, _ => rfl

/-- Rows with the same matches call for the same outcome. -/
theorem rowSelects_forall₂ {N : Prop} {ρ ρ' : Env V} {vs vs' : List V} {rows rows' : List Row}
    {res : Option (Case × Env V)} (h : List.Forall₂ (fun r r' => Splits R ρ vs r ρ' vs' [r']) rows rows') :
    RowSelects R N ρ' vs' rows' res → RowSelects R N ρ vs rows res := by
  induction h with
  | nil => exact id
  | @cons r r' rows rows' hr _ ih =>
    intro hs
    have hone : ∀ q ∈ [r], Splits R ρ vs q ρ' vs' ((fun _ => [r']) q) := by
      intro q hq
      rw [List.mem_singleton.1 hq]
      exact hr
    rcases hs with ht | ⟨hf, hs⟩
    · have h1 : RowSelects R N ρ' vs' ([r].flatMap fun _ => [r']) res := .inl ht
      rcases rowSelects_flatMap hone h1 with ht | ⟨hf, hnil⟩
      · exact .inl ht
      · obtain ⟨_, _, hres, _⟩ := ht
        rw [hres] at hnil
        cases hnil
    · refine .inr ⟨fun β hβ => ?_, ih hs⟩
      obtain ⟨q, hq, ha⟩ := (hr.2 β).1 hβ
      rw [← hr.1 q hq]
      rw [List.mem_singleton.1 hq] at ha ⊢
      exact hf β ha

section

variable {B : TExpr → Prop} {t : Ty} {ts : List Ty} {subject : TExpr}

/-- The new row is well formed and no heavier, lighter if it has an extractor, and has the matches of the old one. -/
structure Extracted (T : PatternTyping R Ty) (subject : TExpr) (B : TExpr → Prop) (t : Ty) (us ts : List Ty)
    (cols : List ExtractorColumn) (p : Row × Option RowExtractor) (r' : Row) : Prop where
  ok : RowOk T B (t :: us ++ ts) r'
  types : FitsAll T r'.patterns (t :: us ++ ts)
  columns : ∃ pats, r'.patterns = pats ++ p.1.patterns.tail ∧ pats.length = us.length + 1
  le : weightAll r'.patterns ≤ weightAll p.1.patterns
  lt : p.2.isSome → weightAll r'.patterns < weightAll p.1.patterns
  splits : ∀ (L : Nat → Prop) (ρ ρ' : Env V) (vs : List V), vs.length = ts.length → (∀ e, B e → e.Within L) →
    ρ.Agree L ρ' → (∀ col ∈ cols, evalExpr R ρ' col.1 = R.extract col.2 (evalExpr R ρ subject)) →
    Splits R ρ (evalExpr R ρ subject :: vs) p.1 ρ'
      (evalExpr R ρ subject :: cols.map (fun col => evalExpr R ρ' col.1) ++ vs) [r']

theorem extracted_none {cols : List ExtractorColumn} {us : List Ty} (hlen : us.length = cols.length) {r : Row}
    (hrow : FlatOk T B (t :: ts) r) {r' : Row} (hnew : NewRow cols (r, none) r') :
    Extracted T subject B t us ts cols (r, none) r' := by
  obtain ⟨pat, rest, hp, rfl⟩ := hnew
  obtain ⟨pat', rest', hp', ht, hts, -⟩ := hrow.uncons
  obtain ⟨rfl, rfl⟩ := List.cons.inj (hp.symm.trans hp')
  have hv := hrow.ok.varsOk
  rw [hp] at hv
  have hfits : FitsAll T (makeOffsetList 0 cols.length pat .patAny ++ rest) (t :: us ++ ts) :=
    fitsAll_offset (by rw [List.length_cons, hlen]; omega) rfl ht hts
  have hweight : weightAll (makeOffsetList 0 cols.length pat .patAny ++ rest) = weightAll r.patterns := by
    rw [weightAll_offset, hp]
  have hlength : (makeOffsetList 0 cols.length pat .patAny).length = us.length + 1 := by
    simp [makeOffsetList, hlen]
  refine ⟨hrow.ok.of_perm rfl ?_ (hasRow_of_fitsAll hfits) (varsOkAll_offset hv.1 hv.2) hrow.ok.bound, hfits,
    ⟨_, by rw [hp]; rfl, hlength⟩, Nat.le_of_eq hweight, nofun, fun L ρ ρ' vs hl hB hagree hhold => ⟨fun q hq => ?_, fun β => ?_⟩⟩
  · simp only [Row.vars, patsVars_offset, hp, patsVars]
    exact .refl _
  · rw [List.mem_singleton.1 hq]
  · simp only [List.mem_singleton, exists_eq_left]
    rw [rowAlt_agree (r := ⟨r.case, r.bindings, makeOffsetList 0 cols.length pat .patAny ++ rest⟩) hagree
      (fun b h => hB _ (hrow.ok.bound b h)), rowAlt_iff (by simp [hl]) hrow.types, rowAlt_iff (by simp [hl, hlen]) hfits, hp]
    have hA : (evalExpr R ρ subject :: cols.map fun col => evalExpr R ρ' col.1).length = 0 + 1 + cols.length := by
      rw [List.length_cons, List.length_map]
      omega
    simp only [mem_matchAll_offset hA rfl]

theorem extracted_some (hsub : B subject) {cols : List ExtractorColumn} {us : List Ty}
    (hus : List.Forall₂ (fun col u => T.extracted t col.2 = some u) cols us) {r : Row} (hrow : FlatOk T B (t :: ts) r)
    {ex : RowExtractor} (hex : r.patterns.head?.bind (extractorOf subject []) = some (ex.ex, ex.pat, ex.bindings))
    {r' : Row} (hnew : NewRow cols (r, some ex) r') : Extracted T subject B t us ts cols (r, some ex) r' := by
  obtain ⟨pat, rest, j, s, hp, hj, rfl⟩ := hnew
  obtain ⟨pat', rest', hp', ht, hts, -⟩ := hrow.uncons
  obtain ⟨rfl, rfl⟩ := List.cons.inj (hp.symm.trans hp')
  have hex : extractorOf subject [] pat = some (ex.ex, ex.pat, ex.bindings) := by rwa [hp] at hex
  obtain ⟨hw, hvars, hperm, htyped, hwithin⟩ := extractorOf_spec (T := T) pat [] hex
  have hv := hrow.ok.varsOk
  rw [hp] at hv
  have hlen : us.length = cols.length := hus.length_eq.symm
  have hjlt : j < cols.length := (List.getElem?_eq_some_iff.1 hj).1
  have hpad : 1 + cols.length = j + 1 + 1 + (cols.length - (j + 1)) := by omega
  -- the column of the extractor has the type of its values
  obtain ⟨u, hu, hq⟩ := htyped t ht
  have huj : (t :: us)[j + 1]? = some u := by
    have hget := List.forall₂_iff_get.1 hus
    have hju : j < us.length := by omega
    have h := hget.2 j hjlt hju
    have hcol : cols.get ⟨j, hjlt⟩ = (s, ex.ex) := (List.getElem?_eq_some_iff.1 hj).2
    rw [hcol, hu] at h
    rw [List.getElem?_cons_succ, List.getElem?_eq_getElem hju]
    exact h.symm
  have hfits : FitsAll T (makeOffsetList (j + 1) (cols.length - (j + 1)) ex.pat .patAny ++ rest) (t :: us ++ ts) :=
    fitsAll_offset (by rw [List.length_cons, hlen]; omega) huj hq hts
  have hlt : weightAll (makeOffsetList (j + 1) (cols.length - (j + 1)) ex.pat .patAny ++ rest) < weightAll r.patterns := by
    rw [weightAll_offset, hp, weightAll, weightAll, hw]
    exact Nat.mul_lt_mul_of_pos_right (Nat.lt_succ_self _) (weightAll_pos rest)
  have hb : ∀ b ∈ ex.bindings ++ r.bindings, B b.2 := by
    intro b hb
    rcases List.mem_append.1 hb with hb | hb
    · exact hwithin B hsub nofun b hb
    · exact hrow.ok.bound b hb
  have hlength : (makeOffsetList (j + 1) (cols.length - (j + 1)) ex.pat .patAny).length = us.length + 1 := by
    simp only [makeOffsetList, List.length_append, List.length_replicate, List.length_singleton]
    omega
  refine ⟨hrow.ok.of_perm rfl ?_ (hasRow_of_fitsAll hfits) (varsOkAll_offset (hvars hv.1) hv.2) hb, hfits,
    ⟨_, by rw [hp]; rfl, hlength⟩, Nat.le_of_lt hlt, fun _ => hlt, fun L ρ ρ' vs hl hB hagree hhold => ⟨fun q hq => ?_, fun β => ?_⟩⟩
  · simp only [Row.vars, extractorRow, patsVars_offset, hp, patsVars, List.map_append]
    have hfront : (ex.bindings.map Prod.fst ++ patVars ex.pat).Perm (patVars pat) := hperm
    refine List.Perm.trans ?_ ((hfront.append_right (patsVars rest)).append_left (r.bindings.map Prod.fst))
    simp only [List.append_assoc]
    exact List.perm_append_comm_assoc ..
  · rw [List.mem_singleton.1 hq]
    rfl
  · simp only [List.mem_singleton, exists_eq_left]
    have hA : (evalExpr R ρ subject :: cols.map fun col => evalExpr R ρ' col.1).length =
        j + 1 + 1 + (cols.length - (j + 1)) := by
      rw [List.length_cons, List.length_map]
      omega
    have hw : (evalExpr R ρ subject :: cols.map fun col => evalExpr R ρ' col.1)[j + 1]? =
        some (R.extract ex.ex (evalExpr R ρ subject)) := by
      rw [List.getElem?_cons_succ, List.getElem?_map, hj, Option.map_some, hhold _ (List.mem_of_getElem? hj)]
    rw [rowAlt_agree hagree (fun b h => hB _ (hb b h)), rowAlt_iff (by simp [hl]) hrow.types, rowAlt_iff (by simp [hl, hlen]) hfits, hp]
    simp only [extractorRow, mem_matchAll_offset hA hw]
    exact extractorOf_alt pat [] hex

/-- The matrix of `compile_extractors`. Its rows are those of the old one, with the same matches once the new
locals hold the values of the extractors. -/
structure NewMatrix (T : PatternTyping R Ty) (subject : TExpr) (n : Nat) (t : Ty) (ts : List Ty) (rows : List Row)
    (c : ExtractorColumns) (us : List Ty) : Prop where
  length : c.subjects.length = us.length
  few : us.length ≤ rowsWeight rows
  rows_ok : ∀ B : TExpr → Prop, (∀ r ∈ rows, FlatOk T B (t :: ts) r) → B subject →
    ∀ r ∈ c.cases, RowOk T B (t :: us ++ ts) r
  columns : ∀ r' ∈ c.cases, FitsAll T r'.patterns (t :: us ++ ts) ∧
    ∃ r ∈ rows, ∃ pats, r'.patterns = pats ++ r.patterns.tail ∧ pats.length = us.length + 1
  lighter : rowsWeight c.cases < rowsWeight rows
  fresh : c.binds.map Prod.fst = List.range' n c.binds.length
  extracts : ∀ b ∈ c.binds, ∃ ex, b.2 = .tExtract ex subject
  locals : ∀ e ∈ c.subjects, ∃ v, e = .tLocal v ∧ n ≤ v ∧ v < n + c.binds.length
  agree : ∀ ρ : Env V, ρ.Agree (· < n) (ρ.bind R (gens c.binds))
  vals : ∀ ρ : Env V, T.val t (evalExpr R ρ subject) →
    List.Forall₂ T.val us (c.subjects.map (evalExpr R (ρ.bind R (gens c.binds))))
  splits : (∀ r ∈ rows, FlatOk T (TExpr.Within (· < n)) (t :: ts) r) → ∀ (ρ : Env V) (vs : List V), vs.length = ts.length →
    List.Forall₂ (fun r r' => Splits R ρ (evalExpr R ρ subject :: vs) r (ρ.bind R (gens c.binds))
      (evalExpr R ρ subject :: c.subjects.map (evalExpr R (ρ.bind R (gens c.binds))) ++ vs) [r']) rows c.cases

theorem exists_types {cols : List ExtractorColumn} (h : ∀ col ∈ cols, ∃ u, T.extracted t col.2 = some u) :
    ∃ us, List.Forall₂ (fun col u => T.extracted t col.2 = some u) cols us := by
  induction cols with
  | nil => exact ⟨[], .nil⟩
  | cons col cols ih =>
    obtain ⟨⟨u, hu⟩, hrest⟩ := List.forall_mem_cons.1 h
    obtain ⟨us, hus⟩ := ih hrest
    exact ⟨u :: us, .cons hu hus⟩

theorem extracted_rowsWeight {us : List Ty} {cols : List ExtractorColumn}
    {l : List (Row × Option RowExtractor)} {rows' : List Row}
    (h : List.Forall₂ (Extracted T subject B t us ts cols) l rows') :
    rowsWeight rows' ≤ rowsWeight (l.map Prod.fst) ∧
      ((∃ p ∈ l, p.2.isSome) → rowsWeight rows' < rowsWeight (l.map Prod.fst)) := by
  induction h with
  | nil => exact ⟨Nat.le_refl _, nofun⟩
  | @cons p r' l rows' hp _ ih =>
    obtain ⟨hle, hlt⟩ := ih
    have hrow := hp.le
    rw [List.map_cons, rowsWeight_cons, rowsWeight_cons]
    refine ⟨by omega, ?_⟩
    rintro ⟨q, hq, hsome⟩
    rcases List.mem_cons.1 hq with rfl | hq
    · have := hp.lt hsome
      omega
    · have := hlt ⟨q, hq, hsome⟩
      omega

theorem extracted_rows_ok {us : List Ty} {cols : List ExtractorColumn} {l : List (Row × Option RowExtractor)}
    {rows' : List Row} (h : List.Forall₂ (Extracted T subject B t us ts cols) l rows') :
    ∀ r ∈ rows', RowOk T B (t :: us ++ ts) r := by
  induction h with
  | nil => exact nofun
  | cons hp _ ih => exact List.forall_mem_cons.2 ⟨hp.ok, ih⟩

theorem extracted_columns {us : List Ty} {cols : List ExtractorColumn} {l : List (Row × Option RowExtractor)}
    {rows' : List Row} (h : List.Forall₂ (Extracted T subject B t us ts cols) l rows') :
    ∀ r' ∈ rows', FitsAll T r'.patterns (t :: us ++ ts) ∧
      ∃ r ∈ l.map Prod.fst, ∃ pats, r'.patterns = pats ++ r.patterns.tail ∧ pats.length = us.length + 1 := by
  induction h with
  | nil => exact nofun
  | @cons p r' l rows' hp _ ih =>
    refine List.forall_mem_cons.2 ⟨⟨hp.types, p.1, List.mem_cons_self .., hp.columns⟩, fun q hq => ?_⟩
    obtain ⟨htypes, r, hr, hcolumns⟩ := ih q hq
    exact ⟨htypes, r, List.mem_cons_of_mem _ hr, hcolumns⟩

theorem FlatOk.mono {B' : TExpr → Prop} {r : Row} (h : FlatOk T B ts r) (hB : ∀ e, B e → B' e) : FlatOk T B' ts r :=
  ⟨h.ok.mono hB, h.types, h.flat⟩

theorem extractors_spec {n : Nat} {rows : List Row} (hrows : ∀ r ∈ rows, FlatOk T B (t :: ts) r)
    (hsub : subject.Within (· < n)) (hex : ¬ NoExtractor rows) : ∃ c us,
      extractorLoop subject (findExtractors subject 0 rows).1 n [] (findExtractors subject 0 rows).2 = .ok c ∧
        NewMatrix T subject n t ts rows c us := by
  obtain ⟨hmarked, hfst⟩ := findExtractors_spec subject rows 0
  generalize findExtractors subject 0 rows = fl at hmarked hfst ⊢
  obtain ⟨num, l⟩ := fl
  have hflat : ∀ {B : TExpr → Prop}, (∀ r ∈ rows, FlatOk T B (t :: ts) r) → ∀ p ∈ l, FlatOk T B (t :: ts) p.1 :=
    fun hrows p hp => hrows p.1 (hfst ▸ List.mem_map_of_mem hp)
  have hcons : ∀ p ∈ l, p.1.patterns ≠ [] := by
    intro p hp h
    obtain ⟨pat, rest, hpat, -⟩ := (hflat hrows p hp).uncons
    rw [h] at hpat
    cases hpat
  obtain ⟨c, cols, hc, ok⟩ := extractorLoop_spec (R := R) hsub l n [] [] (Nat.le_refl n) hcons hmarked nofun nofun
  have hcols := fun ρ : Env V => ok.hold ρ nofun
  simp only [List.nil_append] at hcols
  have hnum : cols.length = num := ok.length
  have hvalue : ∀ (ρ : Env V), ∀ col ∈ cols,
      evalExpr R (ρ.bind R (gens c.binds)) col.1 = R.extract col.2 (evalExpr R ρ subject) := by
    intro ρ col hcol
    obtain ⟨hagree, hhold⟩ := hcols ρ
    obtain ⟨v, hv, -, -, hval⟩ := hhold col hcol
    rw [evalExpr_agree hagree hsub] at hval
    rw [hv]
    exact hval
  -- every column belongs to the extractor of some row, and has the type of its values
  have htypes : ∀ col ∈ cols, ∃ u, T.extracted t col.2 = some u := by
    intro col hcol
    obtain ⟨p, hp, ex, hpex, hcol⟩ := ok.marked col hcol
    obtain ⟨pat, rest, hpat, ht, -⟩ := (hflat hrows p hp).uncons
    have hfound := hmarked.found p hp
    rw [hpex, hpat] at hfound
    obtain ⟨u, hu, -⟩ := (extractorOf_spec (T := T) pat [] hfound).2.2.2.1 t ht
    exact ⟨u, hcol ▸ hu⟩
  obtain ⟨us, hus⟩ := exists_types htypes
  have hlen : us.length = cols.length := hus.length_eq.symm
  have hextracted : ∀ {B : TExpr → Prop}, (∀ r ∈ rows, FlatOk T B (t :: ts) r) → B subject →
      List.Forall₂ (Extracted T subject B t us ts cols) l c.cases := by
    intro B hrows hB
    refine ((List.forall₂_and_left (p := (· ∈ l)) l _).2 ⟨fun _ => id, ok.rows⟩).imp ?_
    rintro ⟨r, _ | ex⟩ r' ⟨hp, hnew⟩
    · exact extracted_none hlen (hflat hrows _ hp) hnew
    · exact extracted_some hB hus (hflat hrows _ hp) (hmarked.found _ hp) hnew
  have hany : ∀ r ∈ rows, FlatOk T (fun _ => True) (t :: ts) r := fun r hr => (hrows r hr).mono fun _ _ => trivial
  have hsome : ∃ p ∈ l, p.2.isSome := by
    by_contra hnone
    refine hex fun r hr pat hpat => ?_
    obtain ⟨p, hp, rfl⟩ := List.mem_map.1 (hfst ▸ hr)
    have hfound := hmarked.found p hp
    cases hp2 : p.2 with
    | some ex => exact absurd ⟨p, hp, by rw [hp2]; rfl⟩ hnone
    | none =>
      rw [hp2, Option.mem_def.1 hpat] at hfound
      exact isExtractor_of_none hfound
  have hvalues : ∀ ρ : Env V, c.subjects.map (evalExpr R (ρ.bind R (gens c.binds))) =
      cols.map fun col => evalExpr R (ρ.bind R (gens c.binds)) col.1 := fun ρ => by
    rw [ok.subjects, List.map_map]
    rfl
  refine ⟨c, us, hc, ?_, ?_, fun B hrows hB => extracted_rows_ok (hextracted hrows hB),
    hfst ▸ extracted_columns (hextracted hany trivial), hfst ▸ (extracted_rowsWeight (hextracted hany trivial)).2 hsome, ok.fresh, ok.extracts, ?_, fun ρ => (hcols ρ).1,
    fun ρ hval => ?_, fun hrows ρ vs hl => ?_⟩
  · rw [ok.subjects, List.length_map, hlen]
  · have hle : num ≤ 0 + l.length := hmarked.le.2
    have hrowslen : l.length = rows.length := by rw [← hfst, List.length_map]
    have := length_le_rowsWeight rows
    omega
  · intro e he
    rw [ok.subjects] at he
    obtain ⟨col, hcol, rfl⟩ := List.mem_map.1 he
    obtain ⟨v, hv, h1, h2, -⟩ := (hcols ⟨fun _ => R.other 0, fun _ => none⟩).2 col hcol
    exact ⟨v, hv, h1, h2⟩
  · rw [hvalues, List.forall₂_map_right_iff]
    refine ((List.forall₂_and_left (p := (· ∈ cols)) cols us).2 ⟨fun _ => id, hus⟩).flip.imp ?_
    rintro u col ⟨hcol, hu⟩
    rw [hvalue ρ col hcol]
    exact T.extracted_val hu hval
  · rw [hvalues, ← hfst, List.forall₂_map_left_iff]
    refine (hextracted hrows hsub).imp fun p r' h => ?_
    exact h.splits (· < n) ρ _ vs hl (fun _ => id) (hcols ρ).1 (hvalue ρ)

end

end EvilHaxe.Matcher
