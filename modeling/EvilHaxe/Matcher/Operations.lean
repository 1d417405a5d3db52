/-
The operations of the compiler on rows: `expand`, `select_column`, `specialize` and `default` keep
rows well formed, and keep their matches.
-/
import EvilHaxe.Matcher.Rows

namespace EvilHaxe.Matcher

variable {V : Type} {R : Runtime V} {Ty : Type} {T : PatternTyping R Ty} {N : Prop}

/-! ## Typed rows -/

/-- Under the bindings the pattern is a constructor, a wildcard or an extractor, as `expand` leaves the
first pattern of a row. -/
def Flat : Pattern → Prop
  | .patAny => True
  | .patConstructor _ _ => True
  | .patExtractor _ _ => True
  | .patBind _ pat => Flat pat
  | _ => False

/-- The constructor of a pattern, under the bindings. -/
def headCon : Pattern → Option Con
  | .patConstructor con _ => some con
  | .patBind _ pat => headCon pat
  | _ => none

/-- Under the bindings the pattern is an extractor. -/
def isExtractor : Pattern → Bool
  | .patExtractor _ _ => true
  | .patBind _ pat => isExtractor pat
  | _ => false

/-- A row after `expand`: its patterns are typed one by one, and the first one is flat. -/
structure FlatOk (T : PatternTyping R Ty) (B : TExpr → Prop) (ts : List Ty) (r : Row) : Prop where
  ok : RowOk T B ts r
  types : FitsAll T r.patterns ts
  flat : ∀ pat ∈ r.patterns.head?, Flat pat

/-- `RowAlt` of a typed row. -/
theorem rowAlt_iff {ts : List Ty} {vs : List V} (hl : vs.length = ts.length) {ρ : Env V} {r : Row}
    (h : FitsAll T r.patterns ts) {β : List (Nat × V)} :
    RowAlt R ρ vs r β ↔
      ∃ β0 ∈ matchAll R r.patterns vs, β.Perm (bindValues R ρ r.bindings ++ β0) := by
  unfold RowAlt
  rw [rowMatches_eq h hl]

theorem fitsAll_append : ∀ {pats pats' : List Pattern} {ts ts' : List Ty}, FitsAll T pats ts →
    FitsAll T pats' ts' → FitsAll T (pats ++ pats') (ts ++ ts')
  | [], _, [], _, _, h' => h'
  | [], _, _ :: _, _, h, _ => by simp [FitsAll] at h
  | _ :: _, _, [], _, h, _ => by simp [FitsAll] at h
  | pat :: pats, pats', t :: ts, ts', h, h' => by
    simp only [FitsAll] at h
    simp only [List.cons_append, FitsAll]
    exact ⟨h.1, fitsAll_append h.2 h'⟩

theorem fitsAll_replicate : ∀ ts : List Ty, FitsAll T (List.replicate ts.length .patAny) ts
  | [] => by simp [FitsAll]
  | t :: ts => by
    simp only [List.length_cons, List.replicate_succ, FitsAll]
    exact ⟨by simp [Fits], fitsAll_replicate ts⟩

theorem fitsAll_map : ∀ {z : List (Pattern × Ty)},
    FitsAll T (z.map Prod.fst) (z.map Prod.snd) ↔ ∀ pt ∈ z, Fits T pt.1 pt.2
  | [] => by simp [FitsAll]
  | (pat, t) :: z => by
    simp only [List.map_cons, FitsAll, List.forall_mem_cons, fitsAll_map (z := z)]

theorem varsOkAll_iff : ∀ {pats : List Pattern}, VarsOkAll pats ↔ ∀ pat ∈ pats, VarsOk pat
  | [] => by simp [VarsOkAll]
  | pat :: pats => by simp only [VarsOkAll, List.forall_mem_cons, @varsOkAll_iff pats]

theorem patsVars_eq : ∀ pats : List Pattern, patsVars pats = pats.flatMap patVars
  | [] => rfl
  | pat :: pats => by simp only [patsVars, List.flatMap_cons, patsVars_eq pats]

theorem patsVars_append (pats pats' : List Pattern) :
    patsVars (pats ++ pats') = patsVars pats ++ patsVars pats' := by
  simp [patsVars_eq]

theorem patsVars_replicate (k : Nat) : patsVars (List.replicate k .patAny) = [] := by
  induction k with
  | zero => rfl
  | succ k ih => simp [List.replicate_succ, patsVars, patVars, ih]

/-! ## `expand` -/

/-- The bindings that `expand` puts back around a pattern. -/
def wrap (xs : List Nat) (pat : Pattern) : Pattern := xs.foldr .patBind pat

theorem wrap_snoc (xs : List Nat) (x : Nat) :
    (fun pat => wrap xs (.patBind x pat)) = wrap (xs ++ [x]) := by
  funext pat; simp [wrap]

theorem patMatches_wrap (pat : Pattern) (v : V) : ∀ xs : List Nat,
    patMatches R (wrap xs pat) v = (patMatches R pat v).map (xs.map (·, v) ++ ·)
  | [] => by simp [wrap]
  | x :: xs => by
    show (patMatches R (wrap xs pat) v).map ((x, v) :: ·) = _
    rw [patMatches_wrap pat v xs, List.map_map]
    rfl

theorem fits_wrap {pat : Pattern} {t : Ty} (h : Fits T pat t) :
    ∀ xs : List Nat, Fits T (wrap xs pat) t
  | [] => h
  | x :: xs => by
    show Fits T (.patBind x (wrap xs pat)) t
    simp only [Fits]
    exact fits_wrap h xs

theorem varsOk_wrap {pat : Pattern} (h : VarsOk pat) : ∀ xs : List Nat, VarsOk (wrap xs pat)
  | [] => h
  | _ :: xs => varsOk_wrap h xs

theorem flat_wrap {pat : Pattern} (h : Flat pat) : ∀ xs : List Nat, Flat (wrap xs pat)
  | [] => h
  | _ :: xs => flat_wrap h xs

theorem patVars_wrap (pat : Pattern) : ∀ xs : List Nat, patVars (wrap xs pat) = xs ++ patVars pat
  | [] => rfl
  | x :: xs => congrArg (x :: ·) (patVars_wrap pat xs)

/-- What `expand` makes of a pattern of type `t`, with `rest` behind it: flat patterns with the same
variables, whose matches are those of the pattern. -/
structure Expands (T : PatternTyping R Ty) (t : Ty) (pat : Pattern) (rest : List Pattern)
    (L : List (List Pattern)) : Prop where
  each : ∀ ps ∈ L, ∃ q, ps = q :: rest ∧ Fits T q t ∧ VarsOk q ∧ Flat q ∧
    (patVars q).Perm (patVars pat)
  matches_iff : ∀ v β, β ∈ patMatches R pat v ↔ ∃ q, q :: rest ∈ L ∧ β ∈ patMatches R q v

theorem expands_self {t : Ty} {pat : Pattern} {rest : List Pattern} (ht : Fits T pat t)
    (hv : VarsOk pat) (hf : Flat pat) : Expands T t pat rest [pat :: rest] where
  each ps hps := by
    obtain rfl := List.mem_singleton.1 hps
    exact ⟨pat, rfl, ht, hv, hf, .refl _⟩
  matches_iff v β := by simp

/-- By recursion on the pattern; `xs` are the bindings already passed. -/
theorem expands_pattern {t : Ty} (rest : List Pattern) : ∀ (pat : Pattern) (xs : List Nat),
    Fits T pat t → VarsOk pat → Expands T t (wrap xs pat) rest (expandPattern (wrap xs) pat rest)
  | .patAny, xs, ht, hv =>
    have hf : Flat .patAny := trivial
    expands_self (fits_wrap ht xs) (varsOk_wrap hv xs) (flat_wrap hf xs)
  | .patConstructor con pats, xs, ht, hv =>
    have hf : Flat (.patConstructor con pats) := trivial
    expands_self (fits_wrap ht xs) (varsOk_wrap hv xs) (flat_wrap hf xs)
  | .patExtractor ex pat, xs, ht, hv =>
    have hf : Flat (.patExtractor ex pat) := trivial
    expands_self (fits_wrap ht xs) (varsOk_wrap hv xs) (flat_wrap hf xs)
  | .patBind x pat, xs, ht, hv => by
    have h := expands_pattern rest pat (xs ++ [x]) (by simpa only [Fits] using ht) hv
    have hw : wrap (xs ++ [x]) pat = wrap xs (.patBind x pat) := (congrFun (wrap_snoc xs x) pat).symm
    simp only [expandPattern, wrap_snoc]
    rwa [hw] at h
  | .patOr pat1 pat2, xs, ht, ⟨hv1, hv2, hp⟩ => by
    simp only [Fits] at ht
    have h1 := expands_pattern rest pat1 xs ht.1 hv1
    have h2 := expands_pattern rest pat2 xs ht.2 hv2
    simp only [expandPattern]
    constructor
    · intro ps hps
      rcases List.mem_append.1 hps with hps | hps
      · obtain ⟨q, rfl, hq, hv, hf, hperm⟩ := h1.each ps hps
        refine ⟨q, rfl, hq, hv, hf, ?_⟩
        rw [patVars_wrap] at hperm ⊢
        exact hperm
      · obtain ⟨q, rfl, hq, hv, hf, hperm⟩ := h2.each ps hps
        refine ⟨q, rfl, hq, hv, hf, ?_⟩
        rw [patVars_wrap] at hperm ⊢
        exact hperm.trans (hp.symm.append_left xs)
    · intro v β
      have hor : β ∈ patMatches R (wrap xs (.patOr pat1 pat2)) v ↔
          β ∈ patMatches R (wrap xs pat1) v ∨ β ∈ patMatches R (wrap xs pat2) v := by
        simp only [patMatches_wrap, patMatches, List.map_append, List.mem_append]
      rw [hor, h1.matches_iff, h2.matches_iff]
      constructor
      · rintro (⟨q, hq, hm⟩ | ⟨q, hq, hm⟩)
        · exact ⟨q, List.mem_append_left _ hq, hm⟩
        · exact ⟨q, List.mem_append_right _ hq, hm⟩
      · rintro ⟨q, hq, hm⟩
        rcases List.mem_append.1 hq with hq | hq
        · exact .inl ⟨q, hq, hm⟩
        · exact .inr ⟨q, hq, hm⟩
  | .patTuple _, _, ht, _ => by simp [Fits] at ht

/-- The same for the patterns of a whole row. -/
structure ExpandsRow (T : PatternTyping R Ty) (ts : List Ty) (pats : List Pattern) (L : List (List Pattern)) :
    Prop where
  each : ∀ ps ∈ L, FitsAll T ps ts ∧ VarsOkAll ps ∧ (∀ q ∈ ps.head?, Flat q) ∧
    (patsVars ps).Perm (patsVars pats)
  matches_iff : ∀ vs : List V, vs.length = ts.length → ∀ β,
    β ∈ rowMatches R pats vs ↔ ∃ ps ∈ L, β ∈ matchAll R ps vs

theorem expandsRow_cons {t : Ty} {ts : List Ty} {pat : Pattern} {rest : List Pattern}
    {L : List (List Pattern)} (h : Expands T t pat rest L) (ht : Fits T pat t)
    (hts : FitsAll T rest ts) (hv : VarsOkAll rest) : ExpandsRow T (t :: ts) (pat :: rest) L where
  each ps hps := by
    obtain ⟨q, rfl, hq, hvq, hf, hperm⟩ := h.each ps hps
    refine ⟨by simp only [FitsAll]; exact ⟨hq, hts⟩, ⟨hvq, hv⟩, ?_, hperm.append_right _⟩
    intro q' hq'
    obtain rfl : q = q' := by simpa using hq'
    exact hf
  matches_iff vs hl β := by
    have htypes : FitsAll T (pat :: rest) (t :: ts) := by simp only [FitsAll]; exact ⟨ht, hts⟩
    rw [rowMatches_eq htypes hl]
    obtain ⟨v, vs, rfl⟩ : ∃ v vs', vs = v :: vs' := by
      cases vs with
      | nil => cases hl
      | cons v vs' => exact ⟨v, vs', rfl⟩
    rw [mem_matchAll_cons]
    constructor
    · rintro ⟨β1, h1, β2, h2, rfl⟩
      obtain ⟨q, hq, hm⟩ := (h.matches_iff v β1).1 h1
      exact ⟨_, hq, (mem_matchAll_cons R).2 ⟨β1, hm, β2, h2, rfl⟩⟩
    · rintro ⟨ps, hps, hm⟩
      obtain ⟨q, rfl, _⟩ := h.each ps hps
      obtain ⟨β1, h1, β2, h2, rfl⟩ := (mem_matchAll_cons R).1 hm
      exact ⟨β1, (h.matches_iff v β1).2 ⟨q, hps, h1⟩, β2, h2, rfl⟩

theorem expandsRow_typed {ts : List Ty} {pat : Pattern} {rest : List Pattern}
    (h : FitsAll T (pat :: rest) ts) (hv : VarsOkAll (pat :: rest)) :
    ExpandsRow T ts (pat :: rest) (expandPattern id pat rest) := by
  cases ts with
  | nil => simp [FitsAll] at h
  | cons t ts =>
    simp only [FitsAll] at h
    exact expandsRow_cons (expands_pattern rest pat [] h.1 hv.1) h.1 h.2 hv.2

theorem expandsRow_nil {ts : List Ty} (h : FitsAll T [] ts) : ExpandsRow T ts [] [[]] where
  each ps hps := by
    obtain rfl := List.mem_singleton.1 hps
    exact ⟨h, trivial, nofun, .refl _⟩
  matches_iff vs _ β := by simp [rowMatches]

theorem expandsRow_single {ts : List Ty} {pat : Pattern} (h : FitsTop T pat ts) (hv : VarsOk pat)
    (hs : FitsTop T pat ts → ∃ t, ts = [t] ∧ Fits T pat t) :
    ExpandsRow T ts [pat] (expandPattern id pat []) := by
  obtain ⟨t, rfl, ht⟩ := hs h
  have hts : FitsAll T [pat] [t] := by simp only [FitsAll]; exact ⟨ht, trivial⟩
  exact expandsRow_typed hts ⟨hv, trivial⟩

/-- The pattern of a case, alone in its row. -/
theorem expandsRow_top {ts : List Ty} : ∀ {pat : Pattern}, FitsTop T pat ts → VarsOk pat →
    ExpandsRow T ts [pat] (expandPattern id pat [])
  | .patTuple pats, h, hv => by
    have hvars : patsVars [.patTuple pats] = patsVars pats := by simp [patsVars, patVars]
    have hexp : expandPattern id (.patTuple pats) [] = expandTuple id pats [] := rfl
    have htuple : ExpandsRow T ts pats (expandTuple id pats []) := by
      cases pats with
      | nil => exact expandsRow_nil h
      | cons q qs =>
        simp only [expandTuple, List.append_nil]
        exact expandsRow_typed h hv
    rw [hexp]
    refine ⟨fun ps hps => ?_, fun vs hl β => ?_⟩
    · obtain ⟨h1, h2, h3, h4⟩ := htuple.each ps hps
      exact ⟨h1, h2, h3, hvars ▸ h4⟩
    · rw [← htuple.matches_iff vs hl, rowMatches_eq h hl]
      rfl
  | .patOr pat1 pat2, ⟨h1, h2⟩, ⟨hv1, hv2, hp⟩ => by
    have e1 := expandsRow_top h1 hv1
    have e2 := expandsRow_top h2 hv2
    have hvars : (patsVars [pat2]).Perm (patsVars [pat1]) := by simpa [patsVars] using hp.symm
    simp only [expandPattern]
    refine ⟨fun ps hps => ?_, fun vs hl β => ?_⟩
    · rcases List.mem_append.1 hps with hps | hps
      · exact e1.each ps hps
      · obtain ⟨h1, h2, h3, h4⟩ := e2.each ps hps
        exact ⟨h1, h2, h3, h4.trans hvars⟩
    · have hor : β ∈ rowMatches R [.patOr pat1 pat2] vs ↔
          β ∈ rowMatches R [pat1] vs ∨ β ∈ rowMatches R [pat2] vs := by
        simp only [rowMatches, topMatches, List.mem_append]
      rw [hor, e1.matches_iff vs hl, e2.matches_iff vs hl]
      constructor
      · rintro (⟨q, hq, hm⟩ | ⟨q, hq, hm⟩)
        · exact ⟨q, List.mem_append_left _ hq, hm⟩
        · exact ⟨q, List.mem_append_right _ hq, hm⟩
      · rintro ⟨q, hq, hm⟩
        rcases List.mem_append.1 hq with hq | hq
        · exact .inl ⟨q, hq, hm⟩
        · exact .inr ⟨q, hq, hm⟩
  | .patAny, h, hv | .patBind _ _, h, hv | .patConstructor _ _, h, hv | .patExtractor _ _, h, hv =>
    expandsRow_single h hv fun h => by
      rcases ts with _ | ⟨t, _ | _⟩
      · exact h.elim
      · exact ⟨t, rfl, h⟩
      · exact h.elim

theorem expandsRow {ts : List Ty} : ∀ {pats : List Pattern}, HasRow T pats ts → VarsOkAll pats →
    ExpandsRow T ts pats (expandPatterns pats)
  | [], h, _ => expandsRow_nil h
  | [_], h, hv => expandsRow_top h.2 hv.1
  | _ :: _ :: _, h, hv => expandsRow_typed h hv

/-- After `expand` each row is flat. -/
theorem expand_ok {B : TExpr → Prop} {ts : List Ty} {rows : List Row} (h : ∀ r ∈ rows, RowOk T B ts r) :
    ∀ r ∈ expand rows, FlatOk T B ts r := by
  intro r' hr'
  obtain ⟨r, hr, hr'⟩ := List.mem_flatMap.1 hr'
  obtain ⟨ps, hps, rfl⟩ := List.mem_map.1 hr'
  obtain ⟨ht, hv, hf, hperm⟩ := (expandsRow (h r hr).typed (h r hr).varsOk).each ps hps
  exact ⟨(h r hr).of_perm rfl (hperm.append_left _) (hasRow_of_fitsAll ht) hv (h r hr).bound, ht, hf⟩

/-- `expand` does not change the outcome. -/
theorem expand_selects {B : TExpr → Prop} {ts : List Ty} {rows : List Row} (h : ∀ r ∈ rows, RowOk T B ts r)
    {ρ : Env V} {vs : List V} (hl : vs.length = ts.length) {res : Option (Case × Env V)}
    (hs : RowSelects R N ρ vs (expand rows) res) : RowSelects R N ρ vs rows res := by
  refine rowSelects_flatMap (fun r hr => ⟨fun r' hr' => ?_, fun β => ?_⟩) hs
  · obtain ⟨ps, _, rfl⟩ := List.mem_map.1 hr'
    rfl
  · have hexp := expandsRow (h r hr).typed (h r hr).varsOk
    constructor
    · rintro ⟨β0, hβ0, hp⟩
      obtain ⟨ps, hps, hm⟩ := (hexp.matches_iff vs hl β0).1 hβ0
      have hrow : FitsAll T ps ts := (hexp.each ps hps).1
      exact ⟨_, List.mem_map.2 ⟨ps, hps, rfl⟩, (rowAlt_iff hl hrow).2 ⟨β0, hm, hp⟩⟩
    · rintro ⟨r', hr', ha⟩
      obtain ⟨ps, hps, rfl⟩ := List.mem_map.1 hr'
      have hrow : FitsAll T ps ts := (hexp.each ps hps).1
      obtain ⟨β0, hβ0, hp⟩ := (rowAlt_iff hl hrow).1 ha
      exact ⟨β0, (hexp.matches_iff vs hl β0).2 ⟨ps, hps, hβ0⟩, hp⟩

/-! ## `select_column` -/

theorem sortColumn_perm {α : Type} (i : Nat) : ∀ (cur : Nat) (acc l : List α),
    (sortColumn i cur acc l).Perm (acc ++ l)
  | cur, acc, [] => by simp [sortColumn]
  | cur, acc, x :: l => by
    unfold sortColumn
    split
    · exact List.perm_middle.symm
    · exact (sortColumn_perm i (cur + 1) (x :: acc) l).trans List.perm_middle.symm

theorem sortColumn_map {α β : Type} (f : α → β) (i : Nat) : ∀ (cur : Nat) (acc l : List α),
    sortColumn i cur (acc.map f) (l.map f) = (sortColumn i cur acc l).map f
  | cur, acc, [] => by simp [sortColumn]
  | cur, acc, x :: l => by
    simp only [sortColumn, List.map_cons]
    split
    · simp
    · rw [← List.map_cons, sortColumn_map f i (cur + 1) (x :: acc) l]

/-- Moving column `i` to the front. -/
def moveColumn {α : Type} (i : Nat) (l : List α) : List α := sortColumn i 0 [] l

theorem moveColumn_perm {α : Type} (i : Nat) (l : List α) : (moveColumn i l).Perm l :=
  sortColumn_perm i 0 [] l

theorem moveColumn_map {α β : Type} (f : α → β) (i : Nat) (l : List α) :
    moveColumn i (l.map f) = (moveColumn i l).map f :=
  sortColumn_map f i 0 [] l

theorem fitsAll_moveColumn (i : Nat) {pats : List Pattern} {ts : List Ty} (h : FitsAll T pats ts) :
    FitsAll T (moveColumn i pats) (moveColumn i ts) := by
  obtain ⟨z, rfl, rfl⟩ := exists_pairs (fitsAll_length h)
  rw [moveColumn_map, moveColumn_map, fitsAll_map]
  exact fun pt hpt => fitsAll_map.1 h pt ((moveColumn_perm i z).mem_iff.1 hpt)

theorem mem_matchAll_moveColumn (i : Nat) {pats : List Pattern} {vs : List V}
    (hl : pats.length = vs.length) {β : List (Nat × V)} :
    (β ∈ matchAll R pats vs → ∃ β' ∈ matchAll R (moveColumn i pats) (moveColumn i vs), β.Perm β') ∧
    (β ∈ matchAll R (moveColumn i pats) (moveColumn i vs) → ∃ β' ∈ matchAll R pats vs, β.Perm β') := by
  obtain ⟨z, rfl, rfl⟩ := exists_pairs hl
  rw [moveColumn_map, moveColumn_map, matchAll_map, matchAll_map]
  exact ⟨pairMatches_perm R (moveColumn_perm i z).symm, pairMatches_perm R (moveColumn_perm i z)⟩

/-- A row with its columns moved. -/
def Row.move (i : Nat) (r : Row) : Row := { r with patterns := moveColumn i r.patterns }

theorem rowOk_move (i : Nat) {B : TExpr → Prop} {ts : List Ty} {r : Row} (h : FlatOk T B ts r) :
    RowOk T B (moveColumn i ts) (r.move i) := by
  have hp := moveColumn_perm i r.patterns
  refine h.ok.of_perm rfl ?_ (hasRow_of_fitsAll (fitsAll_moveColumn i h.types)) ?_ h.ok.bound
  · refine List.Perm.append_left _ ?_
    show (patsVars (moveColumn i r.patterns)).Perm _
    rw [patsVars_eq, patsVars_eq]
    exact hp.flatMap_right _
  · exact varsOkAll_iff.2 fun pat hpat => varsOkAll_iff.1 h.ok.varsOk pat (hp.mem_iff.1 hpat)

theorem move_selects (i : Nat) {B : TExpr → Prop} {ts : List Ty} {rows : List Row}
    (h : ∀ r ∈ rows, FlatOk T B ts r) {ρ : Env V} {vs : List V} (hl : vs.length = ts.length)
    {res : Option (Case × Env V)}
    (hs : RowSelects R N ρ (moveColumn i vs) (rows.map (Row.move i)) res) : RowSelects R N ρ vs rows res := by
  rw [List.map_eq_flatMap] at hs
  refine rowSelects_flatMap (fun r hr => ⟨fun r' hr' => ?_, fun β => ?_⟩) hs
  · obtain rfl := List.mem_singleton.1 hr'
    rfl
  · have hlen : r.patterns.length = vs.length := (fitsAll_length (h r hr).types).trans hl.symm
    have hl' : (moveColumn i vs).length = (moveColumn i ts).length := by
      rw [(moveColumn_perm i vs).length_eq, (moveColumn_perm i ts).length_eq, hl]
    simp only [List.mem_singleton, exists_eq_left]
    rw [rowAlt_iff hl (h r hr).types, rowAlt_iff hl' (fitsAll_moveColumn i (h r hr).types)]
    constructor
    · rintro ⟨β0, hβ0, hp⟩
      obtain ⟨β', hβ', hp'⟩ := (mem_matchAll_moveColumn i hlen).1 hβ0
      exact ⟨β', hβ', hp.trans (hp'.append_left _)⟩
    · rintro ⟨β0, hβ0, hp⟩
      obtain ⟨β', hβ', hp'⟩ := (mem_matchAll_moveColumn i hlen).2 hβ0
      exact ⟨β', hβ', hp.trans (hp'.append_left _)⟩

/-! ## `specialize` and `default` -/

theorem parts_length {t : Ty} {con : Con} {v : V} (hcon : T.con t con) (hval : T.val t v)
    (hold : R.holds con v = true) : (R.parts v con).length = con.arity :=
  (T.parts hcon hval hold).length_eq.symm.trans (T.sub_length hcon)

/-- The first column is bound to the value of the subject. -/
theorem bindAlt_iff {ρ : Env V} {subject : TExpr} {bindings : List (Nat × TExpr)} {x : Nat}
    {pat : Pattern} {rest : List Pattern} {vs : List V} {β : List (Nat × V)} :
    (∃ β0 ∈ matchAll R (.patBind x pat :: rest) (evalExpr R ρ subject :: vs),
        β.Perm (bindValues R ρ bindings ++ β0)) ↔
      ∃ β0 ∈ matchAll R (pat :: rest) (evalExpr R ρ subject :: vs),
        β.Perm (bindValues R ρ ((x, subject) :: bindings) ++ β0) := by
  simp only [mem_matchAll_cons, patMatches, List.mem_map]
  constructor
  · rintro ⟨_, ⟨_, ⟨β1, h1, rfl⟩, β2, h2, rfl⟩, hp⟩
    exact ⟨β1 ++ β2, ⟨β1, h1, β2, h2, rfl⟩, hp.trans List.perm_middle⟩
  · rintro ⟨_, ⟨β1, h1, β2, h2, rfl⟩, hp⟩
    exact ⟨_, ⟨_, ⟨β1, h1, rfl⟩, β2, h2, rfl⟩, hp.trans List.perm_middle.symm⟩

theorem mem_matchAll_any {rest : List Pattern} {v : V} {vs : List V} {β : List (Nat × V)} :
    β ∈ matchAll R (.patAny :: rest) (v :: vs) ↔ β ∈ matchAll R rest vs := by
  simp [matchAll, patMatches]

/-- A value with a constructor does not pass the test of a `null` pattern. -/
theorem holds_null {t : Ty} {con : Con} {v : V} (hn : T.nulls) (hcon : T.con t con) (hval : T.val t v)
    (hold : R.holds con v = true) : R.holds (.conConst .tNull) v = false := by
  rw [T.null_test hn hval]
  by_contra hnull
  rw [T.null hcon hval (by simpa using hnull)] at hold
  cases hold

theorem equal_null {con : Con} (hne : con ≠ .conConst .tNull) : con.equal (.conConst .tNull) = false := by
  cases con with
  | conConst c => exact decide_eq_false fun h => hne (congrArg _ h)
  | _ => rfl

/-- A row specialised to a constructor of the value has the row's matches, the parts of the value in
place of the value; a row that drops out has none. -/
theorem specializePattern_alt {t : Ty} {con : Con} {ρ : Env V} {subject : TExpr}
    {vs : List V} (case : Case) (hcon : T.con t con) (hne : con ≠ .conConst .tNull)
    (hval : T.val t (evalExpr R ρ subject))
    (hold : R.holds con (evalExpr R ρ subject) = true) {rest : List Pattern} {β : List (Nat × V)} :
    ∀ (pat : Pattern) (bindings : List (Nat × TExpr)), Fits T pat t → Flat pat → isExtractor pat = false →
      ((∃ β0 ∈ matchAll R (pat :: rest) (evalExpr R ρ subject :: vs),
          β.Perm (bindValues R ρ bindings ++ β0)) ↔
        ∃ r ∈ specializePattern subject con case bindings pat rest,
          ∃ β0 ∈ matchAll R r.patterns (R.parts (evalExpr R ρ subject) con ++ vs),
            β.Perm (bindValues R ρ r.bindings ++ β0))
  | .patAny, bindings, _, _, _ => by
    have hlen := parts_length hcon hval hold
    have hany : ∀ β0, β0 ∈ matchAll R (List.replicate con.arity .patAny ++ rest)
        (R.parts (evalExpr R ρ subject) con ++ vs) ↔ β0 ∈ matchAll R rest vs := fun β0 => by
      rw [mem_matchAll_append R (by simp [hlen]), ← hlen, matchAll_replicate]
      simp
    simp only [specializePattern, Option.mem_some_iff, exists_eq_left', mem_matchAll_any, hany]
  | .patConstructor con' pats, bindings, ht, _, _ => by
    simp only [Fits] at ht
    simp only [specializePattern]
    obtain ⟨rfl, -, hnulls⟩ | ⟨hcon', _, hpats⟩ := ht
    · simp [equal_null hne, mem_matchAll_cons, patMatches, holds_null hnulls hcon hval hold]
    by_cases he : con.equal con' = true
    · obtain rfl := T.equal_eq hcon hcon' he
      have hlen : pats.length = (R.parts (evalExpr R ρ subject) con).length := by
        rw [fitsAll_length hpats, T.sub_length hcon, parts_length hcon hval hold]
      simp only [he, if_true, Option.mem_some_iff, exists_eq_left', mem_matchAll_cons,
        mem_matchAll_append R hlen, patMatches, hold]
    · have hno := T.exclusive hcon hcon' (by simpa using he) hval hold
      simp [he, mem_matchAll_cons, patMatches, hno]
  | .patBind x pat, bindings, ht, hf, he => by
    rw [bindAlt_iff]
    exact specializePattern_alt case hcon hne hval hold pat _ (by simpa only [Fits] using ht) hf he
  | .patOr _ _, _, _, hf, _ => hf.elim
  | .patTuple _, _, _, hf, _ => hf.elim
  | .patExtractor _ _, _, _, _, he => nomatch he

theorem specializePattern_ok {t : Ty} {ts : List Ty} {con : Con} {subject : TExpr} {B : TExpr → Prop}
    (hsub : B subject) (case : Case) (hcon : T.con t con) (hne : con ≠ .conConst .tNull) {rest : List Pattern}
    (hrest : FitsAll T rest ts) (hvrest : VarsOkAll rest) {r : Row} :
    ∀ (pat : Pattern) (bindings : List (Nat × TExpr)), Fits T pat t → VarsOk pat →
      (∀ b ∈ bindings, B b.2) → r ∈ specializePattern subject con case bindings pat rest →
      r.case = case ∧ FitsAll T r.patterns (T.sub t con ++ ts) ∧ VarsOkAll r.patterns ∧
        r.vars.Perm (bindings.map Prod.fst ++ patsVars (pat :: rest)) ∧ ∀ b ∈ r.bindings, B b.2
  | .patAny, bindings, _, _, hb, hr => by
    obtain rfl := (Option.mem_some_iff.1 hr).symm
    refine ⟨rfl, ?_, ?_, ?_, hb⟩
    · rw [← T.sub_length hcon]
      exact fitsAll_append (fitsAll_replicate _) hrest
    · refine varsOkAll_iff.2 fun q hq => ?_
      rcases List.mem_append.1 hq with hq | hq
      · rw [List.eq_of_mem_replicate hq]; trivial
      · exact varsOkAll_iff.1 hvrest q hq
    · simp [Row.vars, patsVars_append, patsVars_replicate, patsVars, patVars]
  | .patConstructor con' pats, bindings, ht, hv, hb, hr => by
    simp only [Fits] at ht
    simp only [specializePattern] at hr
    obtain ⟨rfl, -, -⟩ | ⟨hcon', _, hpats⟩ := ht
    · simp [equal_null hne] at hr
    split at hr
    · rename_i he
      obtain rfl := T.equal_eq hcon hcon' he
      obtain rfl := (Option.mem_some_iff.1 hr).symm
      refine ⟨rfl, fitsAll_append hpats hrest, ?_, ?_, hb⟩
      · refine varsOkAll_iff.2 fun q hq => ?_
        rcases List.mem_append.1 hq with hq | hq
        · exact varsOkAll_iff.1 hv q hq
        · exact varsOkAll_iff.1 hvrest q hq
      · simp [Row.vars, patsVars_append, patsVars, patVars]
    · cases hr
  | .patBind x pat, bindings, ht, hv, hb, hr => by
    obtain ⟨h1, h2, h3, h4, h5⟩ := specializePattern_ok hsub case hcon hne hrest hvrest pat
      ((x, subject) :: bindings) (by simpa only [Fits] using ht) hv
      (List.forall_mem_cons.2 ⟨hsub, hb⟩) hr
    exact ⟨h1, h2, h3, h4.trans List.perm_middle.symm, h5⟩
  | .patOr _ _, _, _, _, _, hr => by cases hr
  | .patTuple _, _, _, _, _, hr => by cases hr
  | .patExtractor _ _, _, _, _, _, hr => by cases hr

/-- The rows of `default` have the matches of the row when its constructor is not that of the value. -/
theorem defaultPattern_alt {t : Ty} {ρ : Env V} {subject : TExpr} {vs : List V} (case : Case)
    {rest : List Pattern} {β : List (Nat × V)} :
    ∀ (pat : Pattern) (bindings : List (Nat × TExpr)), Fits T pat t → Flat pat → isExtractor pat = false →
      (∀ c ∈ headCon pat, R.holds c (evalExpr R ρ subject) = false) →
      ((∃ β0 ∈ matchAll R (pat :: rest) (evalExpr R ρ subject :: vs),
          β.Perm (bindValues R ρ bindings ++ β0)) ↔
        ∃ r ∈ defaultPattern subject case bindings pat rest,
          ∃ β0 ∈ matchAll R r.patterns vs, β.Perm (bindValues R ρ r.bindings ++ β0))
  | .patAny, bindings, _, _, _, _ => by
    simp only [defaultPattern, Option.mem_some_iff, exists_eq_left', mem_matchAll_any]
  | .patConstructor con pats, bindings, _, _, _, hno => by
    simp [defaultPattern, mem_matchAll_cons, patMatches, hno con rfl]
  | .patBind x pat, bindings, ht, hf, he, hno => by
    rw [bindAlt_iff]
    exact defaultPattern_alt case pat _ (by simpa only [Fits] using ht) hf he hno
  | .patOr _ _, _, _, hf, _, _ => hf.elim
  | .patTuple _, _, _, hf, _, _ => hf.elim
  | .patExtractor _ _, _, _, _, he, _ => nomatch he

theorem defaultPattern_ok {subject : TExpr} {B : TExpr → Prop} (hsub : B subject) (case : Case)
    {rest : List Pattern} {r : Row} :
    ∀ (pat : Pattern) (bindings : List (Nat × TExpr)), (∀ b ∈ bindings, B b.2) →
      r ∈ defaultPattern subject case bindings pat rest →
      r.case = case ∧ r.patterns = rest ∧
        r.vars.Perm (bindings.map Prod.fst ++ patsVars (pat :: rest)) ∧ ∀ b ∈ r.bindings, B b.2
  | .patAny, bindings, hb, hr => by
    obtain rfl := (Option.mem_some_iff.1 hr).symm
    exact ⟨rfl, rfl, by simp [Row.vars, patsVars, patVars], hb⟩
  | .patBind x pat, bindings, hb, hr => by
    obtain ⟨h1, h2, h3, h4⟩ := defaultPattern_ok hsub case pat ((x, subject) :: bindings)
      (List.forall_mem_cons.2 ⟨hsub, hb⟩) hr
    exact ⟨h1, h2, h3.trans List.perm_middle.symm, h4⟩
  | .patConstructor _ _, _, _, hr => by cases hr
  | .patOr _ _, _, _, hr => by cases hr
  | .patTuple _, _, _, hr => by cases hr
  | .patExtractor _ _, _, _, hr => by cases hr

/-- No row has an extractor in the first column. -/
def NoExtractor (rows : List Row) : Prop :=
  ∀ r ∈ rows, ∀ pat ∈ r.patterns.head?, isExtractor pat = false

section

variable {B : TExpr → Prop} {t : Ty} {ts : List Ty} {rows : List Row} {subject : TExpr}

/-- The first pattern of a row with a first column. -/
theorem FlatOk.uncons {r : Row} (h : FlatOk T B (t :: ts) r) : ∃ pat rest,
    r.patterns = pat :: rest ∧ Fits T pat t ∧ FitsAll T rest ts ∧ Flat pat := by
  have ht := h.types
  have hf := h.flat
  cases hp : r.patterns with
  | nil => rw [hp] at ht; simp [FitsAll] at ht
  | cons pat rest =>
    rw [hp] at ht hf
    simp only [FitsAll] at ht
    exact ⟨pat, rest, rfl, ht.1, ht.2, hf pat rfl⟩

theorem specialize_ok (hrows : ∀ r ∈ rows, FlatOk T B (t :: ts) r) (hsub : B subject) {con : Con}
    (hcon : T.con t con) (hne : con ≠ .conConst .tNull) : ∀ r ∈ specialize subject con rows, RowOk T B (T.sub t con ++ ts) r := by
  intro r' hr'
  obtain ⟨r, hr, hr'⟩ := List.mem_filterMap.1 hr'
  obtain ⟨pat, rest, hp, ht, hts, _⟩ := (hrows r hr).uncons
  have hv := (hrows r hr).ok.varsOk
  rw [hp] at hv
  unfold specializeRow at hr'
  rw [hp] at hr'
  obtain ⟨h1, h2, h3, h4, h5⟩ := specializePattern_ok hsub r.case hcon hne hts hv.2 pat r.bindings ht hv.1
    (hrows r hr).ok.bound hr'
  refine (hrows r hr).ok.of_perm h1 ?_ (hasRow_of_fitsAll h2) h3 h5
  unfold Row.vars at h4 ⊢
  rwa [hp]

theorem default_ok (hrows : ∀ r ∈ rows, FlatOk T B (t :: ts) r) (hsub : B subject) :
    ∀ r ∈ default subject rows, RowOk T B ts r := by
  intro r' hr'
  obtain ⟨r, hr, hr'⟩ := List.mem_filterMap.1 hr'
  obtain ⟨pat, rest, hp, _, hts, _⟩ := (hrows r hr).uncons
  have hv := (hrows r hr).ok.varsOk
  rw [hp] at hv
  unfold defaultRow at hr'
  rw [hp] at hr'
  obtain ⟨h1, h2, h3, h4⟩ := defaultPattern_ok hsub r.case pat r.bindings (hrows r hr).ok.bound hr'
  refine (hrows r hr).ok.of_perm h1 ?_ (h2 ▸ hasRow_of_fitsAll hts) (h2 ▸ hv.2) h4
  unfold Row.vars at h3 ⊢
  rwa [hp]

/-- A specialised row has the columns of the parts in front of those of the row. -/
theorem specializePattern_columns {con : Con} (case : Case) (hcon : T.con t con) (hne : con ≠ .conConst .tNull)
    {rest : List Pattern} {r : Row} : ∀ (pat : Pattern) (bindings : List (Nat × TExpr)), Fits T pat t →
      r ∈ specializePattern subject con case bindings pat rest →
      ∃ pats, r.patterns = pats ++ rest ∧ FitsAll T pats (T.sub t con)
  | .patAny, _, _, hr => by
    obtain rfl := (Option.mem_some_iff.1 hr).symm
    exact ⟨_, rfl, T.sub_length hcon ▸ fitsAll_replicate _⟩
  | .patConstructor con' pats, _, ht, hr => by
    simp only [Fits] at ht
    simp only [specializePattern] at hr
    obtain ⟨rfl, -, -⟩ | ⟨hcon', _, hpats⟩ := ht
    · simp [equal_null hne] at hr
    · split at hr
      · rename_i he
        obtain rfl := T.equal_eq hcon hcon' he
        obtain rfl := (Option.mem_some_iff.1 hr).symm
        exact ⟨pats, rfl, hpats⟩
      · cases hr
  | .patBind _ pat, _, ht, hr =>
    specializePattern_columns case hcon hne pat _ (by simpa only [Fits] using ht) hr

theorem specialize_columns (hrows : ∀ r ∈ rows, FlatOk T B (t :: ts) r) {con : Con} (hcon : T.con t con)
    (hne : con ≠ .conConst .tNull) {r' : Row} (hr' : r' ∈ specialize subject con rows) :
    ∃ r ∈ rows, ∃ pats, r'.patterns = pats ++ r.patterns.tail ∧ FitsAll T pats (T.sub t con) ∧
      FitsAll T r.patterns.tail ts := by
  obtain ⟨r, hr, hr'⟩ := List.mem_filterMap.1 hr'
  obtain ⟨pat, rest, hp, ht, hts, -⟩ := (hrows r hr).uncons
  unfold specializeRow at hr'
  rw [hp] at hr'
  obtain ⟨pats, hpats, hfits⟩ := specializePattern_columns r.case hcon hne pat r.bindings ht hr'
  exact ⟨r, hr, pats, by rw [hpats, hp]; rfl, hfits, by rw [hp]; exact hts⟩

/-- A default row has the columns of the row without the first. -/
theorem default_columns (hrows : ∀ r ∈ rows, FlatOk T B (t :: ts) r) {r' : Row} (hr' : r' ∈ default subject rows) :
    ∃ r ∈ rows, r'.patterns = r.patterns.tail ∧ FitsAll T r.patterns.tail ts := by
  obtain ⟨r, hr, hr'⟩ := List.mem_filterMap.1 hr'
  obtain ⟨pat, rest, hp, -, hts, -⟩ := (hrows r hr).uncons
  unfold defaultRow at hr'
  rw [hp] at hr'
  obtain ⟨-, h2, -⟩ := defaultPattern_ok (B := fun _ => True) trivial r.case pat r.bindings (fun _ _ => trivial) hr'
  exact ⟨r, hr, by rw [h2, hp]; rfl, by rw [hp]; exact hts⟩

variable {ρ : Env V} {vs : List V} {res : Option (Case × Env V)}

/-- When the value has the constructor, the specialised rows call for the same outcome. -/
theorem specialize_selects (hrows : ∀ r ∈ rows, FlatOk T B (t :: ts) r) (hex : NoExtractor rows)
    (hsub : B subject) (hl : vs.length = ts.length) {con : Con} (hcon : T.con t con)
    (hne : con ≠ .conConst .tNull)
    (hval : T.val t (evalExpr R ρ subject)) (hold : R.holds con (evalExpr R ρ subject) = true)
    (hs : RowSelects R N ρ (R.parts (evalExpr R ρ subject) con ++ vs) (specialize subject con rows) res) :
    RowSelects R N ρ (evalExpr R ρ subject :: vs) rows res := by
  rw [specialize, List.filterMap_eq_flatMap_toList] at hs
  have hlen : (R.parts (evalExpr R ρ subject) con ++ vs).length = (T.sub t con ++ ts).length := by
    rw [List.length_append, List.length_append, parts_length hcon hval hold, T.sub_length hcon, hl]
  refine rowSelects_flatMap (fun r hr => ?_) hs
  obtain ⟨pat, rest, hp, ht, hts, hf⟩ := (hrows r hr).uncons
  have hv := (hrows r hr).ok.varsOk
  rw [hp] at hv
  have hrow : specializeRow subject con r = specializePattern subject con r.case r.bindings pat rest := by
    unfold specializeRow; rw [hp]
  simp only [hrow]
  have hok := fun (r' : Row)
      (hr' : r' ∈ specializePattern subject con r.case r.bindings pat rest) =>
    specializePattern_ok hsub r.case hcon hne hts hv.2 pat r.bindings ht
    hv.1 (hrows r hr).ok.bound hr'
  refine ⟨fun r' hr' => (hok r' (Option.mem_toList.1 hr')).1, fun β => ?_⟩
  rw [rowAlt_iff (by simp [hl]) (hrows r hr).types, hp,
    specializePattern_alt r.case hcon hne hval hold pat r.bindings ht hf
      (hex r hr pat (by rw [hp]; rfl))]
  constructor
  · rintro ⟨r', hr', ha⟩
    exact ⟨r', Option.mem_toList.2 hr', (rowAlt_iff hlen (hok r' hr').2.1).2 ha⟩
  · rintro ⟨r', hr', ha⟩
    have hr' := Option.mem_toList.1 hr'
    exact ⟨r', hr', (rowAlt_iff hlen (hok r' hr').2.1).1 ha⟩

/-- When the value has no constructor of the column, the default rows call for the same outcome. -/
theorem default_selects (hrows : ∀ r ∈ rows, FlatOk T B (t :: ts) r) (hex : NoExtractor rows)
    (hsub : B subject) (hl : vs.length = ts.length)
    (hno : ∀ r ∈ rows, ∀ pat ∈ r.patterns.head?, ∀ c ∈ headCon pat,
      R.holds c (evalExpr R ρ subject) = false)
    (hs : RowSelects R N ρ vs (default subject rows) res) :
    RowSelects R N ρ (evalExpr R ρ subject :: vs) rows res := by
  rw [default, List.filterMap_eq_flatMap_toList] at hs
  refine rowSelects_flatMap (fun r hr => ?_) hs
  obtain ⟨pat, rest, hp, ht, hts, hf⟩ := (hrows r hr).uncons
  have hrow : defaultRow subject r = defaultPattern subject r.case r.bindings pat rest := by
    unfold defaultRow; rw [hp]
  simp only [hrow]
  have hok := fun (r' : Row) (hr' : r' ∈ defaultPattern subject r.case r.bindings pat rest) =>
    defaultPattern_ok hsub r.case pat r.bindings (hrows r hr).ok.bound hr'
  have htypes : ∀ r' ∈ defaultPattern subject r.case r.bindings pat rest, FitsAll T r'.patterns ts :=
    fun r' hr' => (hok r' hr').2.1 ▸ hts
  refine ⟨fun r' hr' => (hok r' (Option.mem_toList.1 hr')).1, fun β => ?_⟩
  rw [rowAlt_iff (by simp [hl]) (hrows r hr).types, hp,
    defaultPattern_alt r.case pat r.bindings ht hf (hex r hr pat (by rw [hp]; rfl)) (hno r hr pat (by rw [hp]; rfl))]
  constructor
  · rintro ⟨r', hr', ha⟩
    exact ⟨r', Option.mem_toList.2 hr', (rowAlt_iff hl (htypes r' hr')).2 ha⟩
  · rintro ⟨r', hr', ha⟩
    have hr' := Option.mem_toList.1 hr'
    exact ⟨r', hr', (rowAlt_iff hl (htypes r' hr')).1 ha⟩

end

end EvilHaxe.Matcher
