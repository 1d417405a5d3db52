/-
Why the compiler terminates: between one call of `compile` and the calls it makes the weight of the
matrix goes down, or it stays and the matrix loses a column.
-/
import EvilHaxe.Matcher.Operations

namespace EvilHaxe.Matcher

/-! ## Weights of rows -/

theorem weightAll_append : ∀ pats pats' : List Pattern,
    weightAll (pats ++ pats') = weightAll pats * weightAll pats'
  | [], pats' => by simp [weightAll]
  | pat :: pats, pats' => by
    simp only [List.cons_append, weightAll, weightAll_append pats pats', Nat.mul_assoc]

theorem weightAll_pos : ∀ pats : List Pattern, 0 < weightAll pats
  | [] => by simp [weightAll]
  | pat :: pats => by
    simp only [weightAll]
    exact Nat.mul_pos (Nat.succ_pos _) (weightAll_pos pats)

theorem weightAll_perm {pats pats' : List Pattern} (h : pats.Perm pats') :
    weightAll pats = weightAll pats' := by
  induction h with
  | nil => rfl
  | cons pat _ ih => simp only [weightAll, ih]
  | swap pat pat' pats => simp only [weightAll, Nat.mul_left_comm]
  | trans _ _ ih1 ih2 => exact ih1.trans ih2

theorem weightAll_replicate (k : Nat) : weightAll (List.replicate k .patAny) = 1 := by
  induction k with
  | zero => simp [weightAll]
  | succ k ih => simp [List.replicate_succ, weightAll, weight, ih]

@[simp] theorem rowsWeight_cons (r : Row) (rows : List Row) :
    rowsWeight (r :: rows) = weightAll r.patterns + rowsWeight rows := by
  simp [rowsWeight]

theorem rowsWeight_append (rows rows' : List Row) :
    rowsWeight (rows ++ rows') = rowsWeight rows + rowsWeight rows' := by
  simp [rowsWeight]

/-- `fuelFor` by the number of columns and the weight. -/
def fuelNeed (columns w : Nat) : Nat := (w + 1) * (columns + 1 + w * w)

theorem fuelNeed_pos (c w : Nat) : 0 < fuelNeed c w :=
  Nat.mul_pos (Nat.succ_pos w) (Nat.lt_of_lt_of_le (Nat.succ_pos c) (Nat.le_add_right ..))

theorem fuelNeed_column {c w w' : Nat} (hw : w' ≤ w) : fuelNeed c w' < fuelNeed (c + 1) w := by
  have hsquare : w' * w' ≤ w * w := Nat.mul_le_mul hw hw
  have hlt : c + 1 + w' * w' < c + 1 + 1 + w * w := by omega
  calc (w' + 1) * (c + 1 + w' * w')
      ≤ (w + 1) * (c + 1 + w' * w') := Nat.mul_le_mul_right _ (Nat.succ_le_succ hw)
    _ < (w + 1) * (c + 1 + 1 + w * w) := Nat.mul_lt_mul_of_pos_left hlt (Nat.succ_pos w)

/-- A lighter matrix may have as many new columns as the old one was heavy. -/
theorem fuelNeed_lighter {c c' w w' : Nat} (hw : w' < w) (hc : c' ≤ c + w) : fuelNeed c' w' < fuelNeed c w := by
  have hsquare : w * (w' + 1) ≤ w * w := Nat.mul_le_mul_left w hw
  have hmixed : w' * w' ≤ w * w' := Nat.mul_le_mul_right w' (Nat.le_of_lt hw)
  have hle : c' + 1 + w' * w' ≤ c + 1 + w * w := by
    rw [Nat.mul_succ] at hsquare
    omega
  calc (w' + 1) * (c' + 1 + w' * w')
      ≤ w * (c + 1 + w * w) := Nat.mul_le_mul hw hle
    _ < (w + 1) * (c + 1 + w * w) := Nat.mul_lt_mul_of_pos_right (Nat.lt_succ_self w) (by omega)

theorem fuelNeed_mono {c w w' : Nat} (hw : w' ≤ w) : fuelNeed c w' ≤ fuelNeed c w := by
  have hsquare : w' * w' ≤ w * w := Nat.mul_le_mul hw hw
  exact Nat.mul_le_mul (Nat.succ_le_succ hw) (Nat.add_le_add_left hsquare _)

/-- A leaf's row is left out. -/
theorem fuelNeed_row {c w w' : Nat} (hw : w' < w) : fuelNeed c w' < fuelNeed c w :=
  fuelNeed_lighter hw (Nat.le_add_right c w)

/-! ## `expand` -/

theorem weight_wrap (pat : Pattern) : ∀ xs : List Nat, weight (wrap xs pat) = weight pat
  | [] => rfl
  | _ :: xs => weight_wrap pat xs

/-- The sum of the weights of rows of patterns. -/
def sumWeight (L : List (List Pattern)) : Nat := (L.map weightAll).sum

theorem sumWeight_append (L L' : List (List Pattern)) :
    sumWeight (L ++ L') = sumWeight L + sumWeight L' := by
  simp [sumWeight]

mutual

theorem sumWeight_expandPattern : ∀ (pat : Pattern) (xs : List Nat) (rest : List Pattern),
    sumWeight (expandPattern (wrap xs) pat rest) ≤ weightAll (pat :: rest)
  | .patAny, xs, rest => by simp [expandPattern, sumWeight, weightAll, weight_wrap]
  | .patConstructor _ _, xs, rest => by simp [expandPattern, sumWeight, weightAll, weight_wrap]
  | .patExtractor _ _, xs, rest => by simp [expandPattern, sumWeight, weightAll, weight_wrap]
  | .patBind x pat, xs, rest => by
    simp only [expandPattern, wrap_snoc]
    exact sumWeight_expandPattern pat (xs ++ [x]) rest
  | .patOr pat1 pat2, xs, rest => by
    have h1 := sumWeight_expandPattern pat1 xs rest
    have h2 := sumWeight_expandPattern pat2 xs rest
    simp only [expandPattern, sumWeight_append]
    refine Nat.le_trans (Nat.add_le_add h1 h2) ?_
    simp only [weightAll, weight, ← Nat.add_mul]
    exact Nat.mul_le_mul_right _ (by omega)
  | .patTuple pats, xs, rest => by
    refine Nat.le_trans (sumWeight_expandTuple pats xs rest) ?_
    simp only [weightAll, weight]
    exact Nat.mul_le_mul_right _ (by omega)

theorem sumWeight_expandTuple : ∀ (pats : List Pattern) (xs : List Nat) (rest : List Pattern),
    sumWeight (expandTuple (wrap xs) pats rest) ≤ weightAll pats * weightAll rest
  | [], xs, rest => by simp [expandTuple, sumWeight, weightAll]
  | pat :: pats, xs, rest => by
    rw [← weightAll_append]
    exact sumWeight_expandPattern pat xs (pats ++ rest)

end

theorem sumWeight_expandPatterns : ∀ pats : List Pattern,
    sumWeight (expandPatterns pats) ≤ weightAll pats
  | [] => by simp [expandPatterns, sumWeight]
  | pat :: pats => sumWeight_expandPattern pat [] pats

theorem rowsWeight_expand_cons (r : Row) (rows : List Row) :
    rowsWeight (expand (r :: rows)) = sumWeight (expandPatterns r.patterns) + rowsWeight (expand rows) := by
  simp [rowsWeight, expand, sumWeight, List.map_map, Function.comp_def]

theorem rowsWeight_expand : ∀ rows : List Row, rowsWeight (expand rows) ≤ rowsWeight rows
  | [] => Nat.le_refl _
  | r :: rows => by
    rw [rowsWeight_expand_cons, rowsWeight_cons]
    exact Nat.add_le_add (sumWeight_expandPatterns r.patterns) (rowsWeight_expand rows)

/-! ## `select_column` -/

theorem moveColumn_zero {α : Type} (l : List α) : moveColumn 0 l = l := by
  cases l <;> simp [moveColumn, sortColumn]

/-- The index of the column that is moved. -/
def columnIndex (cases : List Row) : Nat :=
  match cases with | r :: _ => selectIndex 0 r.patterns | [] => 0

theorem selectColumn_eq (subjects : List TExpr) (cases : List Row) :
    selectColumn subjects cases =
      (moveColumn (columnIndex cases) subjects, cases.map (Row.move (columnIndex cases))) := by
  have hz : ∀ r : Row, r.move 0 = r := fun r => by simp [Row.move, moveColumn_zero]
  show (if columnIndex cases = 0 then _ else _) = _
  split
  · rename_i h
    rw [h, moveColumn_zero, List.map_congr_left fun r _ => hz r, List.map_id']
  · rfl

theorem rowsWeight_move (i : Nat) (rows : List Row) : rowsWeight (rows.map (Row.move i)) = rowsWeight rows := by
  induction rows with
  | nil => rfl
  | cons r rows ih =>
    rw [List.map_cons, rowsWeight_cons, rowsWeight_cons, ih]
    exact congrArg (· + _) (weightAll_perm (moveColumn_perm i r.patterns))

/-! ## `specialize` and `default` -/

/-- The first column has a constructor `c`. -/
def HasCon (c : Con) (rows : List Row) : Prop := ∃ r ∈ rows, ∃ pat ∈ r.patterns.head?, headCon pat = some c

/-- The matrix that `compile` hands to `compile_switch` is no heavier than its own. -/
theorem rowsWeight_prepared (cases : List Row) (i : Nat) :
    rowsWeight (expand ((expand cases).map (Row.move i))) ≤ rowsWeight cases := by
  refine Nat.le_trans (rowsWeight_expand _) ?_
  rw [rowsWeight_move]
  exact rowsWeight_expand cases

theorem weight_specializePattern {subject : TExpr} {con : Con} (case : Case) {rest : List Pattern}
    {r : Row} : ∀ (pat : Pattern) (bindings : List (Nat × TExpr)),
      r ∈ specializePattern subject con case bindings pat rest →
      weightAll r.patterns ≤ weightAll (pat :: rest) ∧
        (∀ c, headCon pat = some c → weightAll r.patterns < weightAll (pat :: rest))
  | .patAny, _, hr => by
    obtain rfl := (Option.mem_some_iff.1 hr).symm
    simp [weightAll_append, weightAll_replicate, weightAll, weight, headCon]
  | .patConstructor con' pats, bindings, hr => by
    simp only [specializePattern] at hr
    split at hr
    · obtain rfl := (Option.mem_some_iff.1 hr).symm
      have hlt : weightAll (pats ++ rest) < weightAll (.patConstructor con' pats :: rest) := by
        simp only [weightAll_append, weightAll, weight]
        exact Nat.mul_lt_mul_of_pos_right (by omega) (weightAll_pos rest)
      exact ⟨Nat.le_of_lt hlt, fun _ _ => hlt⟩
    · cases hr
  | .patBind x pat, bindings, hr => weight_specializePattern case pat _ hr
  | .patOr _ _, _, hr => by cases hr
  | .patTuple _, _, hr => by cases hr
  | .patExtractor _ _, _, hr => by cases hr

theorem weight_defaultPattern {subject : TExpr} (case : Case) {rest : List Pattern}
    {r : Row} : ∀ (pat : Pattern) (bindings : List (Nat × TExpr)),
      r ∈ defaultPattern subject case bindings pat rest →
      weightAll r.patterns ≤ weightAll (pat :: rest) ∧ headCon pat = none
  | .patAny, _, hr => by
    obtain rfl := (Option.mem_some_iff.1 hr).symm
    simp [weightAll, weight, headCon]
  | .patBind x pat, bindings, hr => weight_defaultPattern case pat _ hr
  | .patConstructor _ _, _, hr => by cases hr
  | .patOr _ _, _, hr => by cases hr
  | .patTuple _, _, hr => by cases hr
  | .patExtractor _ _, _, hr => by cases hr

/-- A filter on rows that loses weight on some row loses weight. -/
theorem rowsWeight_filterMap {f : Row → Option Row} : ∀ {rows : List Row},
    (∀ r ∈ rows, ∀ r' ∈ f r, weightAll r'.patterns ≤ weightAll r.patterns) →
    rowsWeight (rows.filterMap f) ≤ rowsWeight rows ∧
      ((∃ r ∈ rows, ∀ r' ∈ f r, weightAll r'.patterns < weightAll r.patterns) →
        rowsWeight (rows.filterMap f) < rowsWeight rows)
  | [], _ => by simp
  | r :: rows, h => by
    obtain ⟨hr, hrows⟩ := List.forall_mem_cons.1 h
    obtain ⟨hle, hlt⟩ := rowsWeight_filterMap hrows
    have hpos := weightAll_pos r.patterns
    cases hf : f r with
    | none =>
      rw [List.filterMap_cons, hf, rowsWeight_cons]
      exact ⟨by simp only; omega, fun _ => by simp only; omega⟩
    | some r' =>
      rw [List.filterMap_cons, hf]
      simp only [rowsWeight_cons]
      have hr' := hr r' hf
      refine ⟨by omega, ?_⟩
      rintro ⟨q, hq, hq'⟩
      rcases List.mem_cons.1 hq with rfl | hq
      · have := hq' r' hf; omega
      · have := hlt ⟨q, hq, hq'⟩; omega

theorem rowsWeight_specialize (subject : TExpr) (con : Con) (rows : List Row) :
    rowsWeight (specialize subject con rows) ≤ rowsWeight rows ∧
      (HasCon con rows → rowsWeight (specialize subject con rows) < rowsWeight rows) := by
  have hrow : ∀ r : Row, ∀ r' ∈ specializeRow subject con r,
      weightAll r'.patterns ≤ weightAll r.patterns ∧
        ∀ c, (∃ pat ∈ r.patterns.head?, headCon pat = some c) →
          weightAll r'.patterns < weightAll r.patterns := by
    intro r r' hr'
    unfold specializeRow at hr'
    cases hp : r.patterns with
    | nil => rw [hp] at hr'; cases hr'
    | cons pat rest =>
      rw [hp] at hr'
      obtain ⟨h1, h2⟩ := weight_specializePattern r.case pat r.bindings hr'
      refine ⟨h1, ?_⟩
      rintro c ⟨q, hq, hc⟩
      obtain rfl : pat = q := by simpa using hq
      exact h2 c hc
  obtain ⟨hle, hlt⟩ := rowsWeight_filterMap fun r (_ : r ∈ rows) r' hr' => (hrow r r' hr').1
  exact ⟨hle, fun ⟨r, hr, pat, hpat, hc⟩ => hlt ⟨r, hr, fun r' hr' => (hrow r r' hr').2 con ⟨pat, hpat, hc⟩⟩⟩

theorem rowsWeight_default (subject : TExpr) (rows : List Row) :
    rowsWeight (default subject rows) ≤ rowsWeight rows ∧
      ((∃ c, HasCon c rows) → rowsWeight (default subject rows) < rowsWeight rows) := by
  have hrow : ∀ r : Row, ∀ r' ∈ defaultRow subject r,
      weightAll r'.patterns ≤ weightAll r.patterns ∧ ∀ pat ∈ r.patterns.head?, headCon pat = none := by
    intro r r' hr'
    unfold defaultRow at hr'
    cases hp : r.patterns with
    | nil => rw [hp] at hr'; cases hr'
    | cons pat rest =>
      rw [hp] at hr'
      obtain ⟨h1, h2⟩ := weight_defaultPattern r.case pat r.bindings hr'
      refine ⟨h1, fun q hq => ?_⟩
      obtain rfl : pat = q := by simpa using hq
      exact h2
  obtain ⟨hle, hlt⟩ := rowsWeight_filterMap fun r (_ : r ∈ rows) r' hr' => (hrow r r' hr').1
  refine ⟨hle, ?_⟩
  rintro ⟨c, r, hr, pat, hpat, hc⟩
  refine hlt ⟨r, hr, fun r' hr' => ?_⟩
  have := (hrow r r' hr').2 pat hpat
  rw [hc] at this
  cases this

/-! The first column of a matrix after `expand`: its constructors, its rows with a `null` pattern, and
whether it has an extractor, which is when `compile_switch` gives up. -/

variable {V : Type} {R : Runtime V} {Ty : Type} {T : PatternTyping R Ty}

/-! ## Rows with a `null` pattern -/

/-- The row of `null` that `get_column_sigma` makes, by the first pattern of a row. -/
def nullPattern (subject : TExpr) (case : Case) :
    List (Nat × TExpr) → Pattern → List Pattern → Option Row
  | bindings, .patConstructor con _, patterns =>
    if con = .conConst .tNull then some ⟨case, bindings, patterns⟩ else none
  | bindings, .patBind v pat1, patterns => nullPattern subject case ((v, subject) :: bindings) pat1 patterns
  | _, _, _ => none

def nullRow (subject : TExpr) (r : Row) : Option Row :=
  match r.patterns with
  | pat :: patterns => nullPattern subject r.case r.bindings pat patterns
  | [] => none

theorem nullRow_cons {subject : TExpr} {r : Row} {pat : Pattern} {rest : List Pattern}
    (hp : r.patterns = pat :: rest) : nullRow subject r = nullPattern subject r.case r.bindings pat rest := by
  unfold nullRow
  rw [hp]

/-! ## The pass over the column -/

theorem mem_replaceCon {con : Con} {u : Bool} {c : Con} : ∀ {sigma : List (Con × Bool)},
    (∀ p ∈ sigma, p.1.equal con = true → p.1 = con) →
    (c ∈ (replaceCon con u sigma).map Prod.fst ↔ c = con ∨ c ∈ sigma.map Prod.fst)
  | [], _ => by simp [replaceCon]
  | (con', u') :: sigma, h => by
    obtain ⟨h1, h2⟩ := List.forall_mem_cons.1 h
    unfold replaceCon
    split
    · rename_i he
      obtain rfl : con' = con := h1 he
      simp
    · simp only [List.map_cons, List.mem_cons, mem_replaceCon h2]
      exact or_left_comm

/-- The constructor of a pattern, if it is not `null`. -/
def switchCon : Pattern → Option Con
  | .patConstructor con _ => if con = .conConst .tNull then none else some con
  | .patBind _ pat => switchCon pat
  | _ => none

theorem switchCon_eq_some {c : Con} : ∀ {p : Pattern},
    switchCon p = some c ↔ headCon p = some c ∧ c ≠ .conConst .tNull
  | .patConstructor con _ => by
    by_cases hc : con = .conConst .tNull
    · simp only [switchCon, headCon, if_pos hc, Option.some_inj]
      constructor
      · exact nofun
      · rintro ⟨rfl, hne⟩
        exact absurd hc hne
    · simp only [switchCon, headCon, if_neg hc, Option.some_inj]
      constructor
      · rintro rfl
        exact ⟨rfl, hc⟩
      · exact And.left
  | .patBind _ pat => switchCon_eq_some (p := pat)
  | .patAny | .patOr _ _ | .patTuple _ | .patExtractor _ _ => by simp [switchCon, headCon]

theorem columnPattern_eq (subject : TExpr) (r : Row) (rest : List Pattern)
    (acc : List (Con × Bool) × List Row) : ∀ (pat : Pattern) (bindings : List (Nat × TExpr)),
    Flat pat → isExtractor pat = false → columnPattern subject r rest bindings pat acc =
      .ok (match switchCon pat with
        | some con => replaceCon con r.case.caseGuard.isNone acc.1
        | none => acc.1,
        acc.2 ++ (nullPattern subject r.case bindings pat rest).toList)
  | .patAny, _, _, _ => by simp [columnPattern, switchCon, nullPattern]
  | .patConstructor con pats, _, _, _ => by
    by_cases hc : con = .conConst .tNull
    · simp [columnPattern, switchCon, nullPattern, hc]
    · simp [columnPattern, switchCon, nullPattern, hc]
  | .patBind x pat, bindings, hf, he => columnPattern_eq subject r rest acc pat _ hf he
  | .patOr _ _, _, hf, _ => hf.elim
  | .patTuple _, _, hf, _ => hf.elim
  | .patExtractor _ _, _, _, he => nomatch he

theorem columnPattern_extractor (subject : TExpr) (r : Row) (rest : List Pattern)
    (acc : List (Con × Bool) × List Row) : ∀ (pat : Pattern) (bindings : List (Nat × TExpr)),
    isExtractor pat = true → columnPattern subject r rest bindings pat acc = .error .extractor
  | .patExtractor _ _, _, _ => rfl
  | .patBind _ pat, _, he => columnPattern_extractor subject r rest acc pat _ he

theorem headCon_typed {t : Ty} {c : Con} : ∀ pat : Pattern, Fits T pat t →
    switchCon pat = some c → T.con t c
  | .patConstructor con _, ht, hc => by
    simp only [Fits] at ht
    obtain ⟨hcon, hne⟩ := switchCon_eq_some.1 hc
    cases hcon
    obtain ⟨rfl, -⟩ | ht := ht
    · exact absurd rfl hne
    · exact ht.1
  | .patBind _ pat, ht, hc => headCon_typed pat (by simpa only [Fits] using ht) hc

/-- The constructors and the rows of `null` that are found are those of the column. -/
theorem getColumnSigma_spec {B : TExpr → Prop} {t : Ty} {ts : List Ty} (subject : TExpr) :
    ∀ (rows : List Row) (sigma : List (Con × Bool)) (null : List Row), (∀ r ∈ rows, FlatOk T B (t :: ts) r) →
      NoExtractor rows → (∀ p ∈ sigma, T.con t p.1 ∧ p.1 ≠ .conConst .tNull) →
      ∃ sigma', getColumnSigma subject rows (sigma, null) =
          .ok (sigma', null ++ rows.filterMap (nullRow subject)) ∧
        (∀ p ∈ sigma', T.con t p.1 ∧ p.1 ≠ .conConst .tNull) ∧
        ∀ c, c ∈ sigma'.map Prod.fst ↔ c ∈ sigma.map Prod.fst ∨ (c ≠ .conConst .tNull ∧ HasCon c rows)
  | [], sigma, null, _, _, hs => ⟨sigma, by simp [getColumnSigma], hs, fun c => by simp [HasCon]⟩
  | r :: rows, sigma, null, hrows, hex, hs => by
    obtain ⟨hr, hrest⟩ := List.forall_mem_cons.1 hrows
    obtain ⟨hexr, hexrest⟩ := List.forall_mem_cons.1 hex
    obtain ⟨pat, rest, hp, ht, _, hf⟩ := hr.uncons
    have he : isExtractor pat = false := hexr pat (by rw [hp]; rfl)
    have hcons : ∀ c, (c ≠ .conConst .tNull ∧ HasCon c (r :: rows)) ↔
        switchCon pat = some c ∨ (c ≠ .conConst .tNull ∧ HasCon c rows) := fun c => by
      simp only [HasCon, List.mem_cons, or_and_right, exists_or, exists_eq_left, hp, List.head?_cons,
        Option.mem_some_iff, exists_eq_left', switchCon_eq_some]
      rw [and_or_left, and_comm (a := c ≠ _) (b := headCon pat = some c)]
    have hnull : null ++ (r :: rows).filterMap (nullRow subject) =
        (null ++ (nullPattern subject r.case r.bindings pat rest).toList) ++ rows.filterMap (nullRow subject) := by
      rw [List.filterMap_cons, nullRow_cons hp]
      cases nullPattern subject r.case r.bindings pat rest <;> simp
    simp only [getColumnSigma, hp]
    rw [columnPattern_eq subject r rest _ pat r.bindings hf he, hnull]
    cases hc : switchCon pat with
    | none =>
      obtain ⟨sigma', h1, h2, h3⟩ := getColumnSigma_spec subject rows sigma _ hrest hexrest hs
      exact ⟨sigma', h1, h2, fun c => by rw [h3, hcons, hc]; simp⟩
    | some con =>
      have hcon : T.con t con := headCon_typed pat ht hc
      have hne : con ≠ .conConst .tNull := (switchCon_eq_some.1 hc).2
      have hmem : ∀ c, c ∈ (replaceCon con r.case.caseGuard.isNone sigma).map Prod.fst ↔
          c = con ∨ c ∈ sigma.map Prod.fst := fun c =>
        mem_replaceCon fun p hp he => T.equal_eq (hs p hp).1 hcon he
      have hs' : ∀ p ∈ replaceCon con r.case.caseGuard.isNone sigma, T.con t p.1 ∧ p.1 ≠ .conConst .tNull := by
        intro p hp
        rcases (hmem p.1).1 (List.mem_map_of_mem hp) with h | h
        · exact h ▸ ⟨hcon, hne⟩
        · obtain ⟨q, hq, hqp⟩ := List.mem_map.1 h
          exact hqp ▸ hs q hq
      obtain ⟨sigma', h1, h2, h3⟩ := getColumnSigma_spec subject rows _ _ hrest hexrest hs'
      refine ⟨sigma', h1, h2, fun c => ?_⟩
      rw [h3, hmem, hcons, hc, Option.some_inj]
      constructor
      · rintro ((rfl | h) | h)
        · exact .inr (.inl rfl)
        · exact .inl h
        · exact .inr (.inr h)
      · rintro (h | rfl | h)
        · exact .inl (.inr h)
        · exact .inl (.inl rfl)
        · exact .inr h

/-- An extractor in the column raises `Extractor`. -/
theorem getColumnSigma_extractor {B : TExpr → Prop} {t : Ty} {ts : List Ty} (subject : TExpr) :
    ∀ (rows : List Row) (acc : List (Con × Bool) × List Row), (∀ r ∈ rows, FlatOk T B (t :: ts) r) →
      ¬ NoExtractor rows → getColumnSigma subject rows acc = .error .extractor
  | [], _, _, hex => absurd nofun hex
  | r :: rows, acc, hrows, hex => by
    obtain ⟨hr, hrest⟩ := List.forall_mem_cons.1 hrows
    obtain ⟨pat, rest, hp, _, _, hf⟩ := hr.uncons
    simp only [getColumnSigma, hp]
    cases he : isExtractor pat with
    | true =>
      rw [columnPattern_extractor subject r rest acc pat r.bindings he]
      rfl
    | false =>
      rw [columnPattern_eq subject r rest acc pat r.bindings hf he]
      refine getColumnSigma_extractor subject rows _ hrest fun h => hex (List.forall_mem_cons.2 ⟨?_, h⟩)
      intro q hq
      obtain rfl : pat = q := by simpa [hp] using hq
      exact he

/-! ## Weights -/

theorem weight_lt_weightAll {pat : Pattern} {pats : List Pattern} (h : pat ∈ pats.head?) :
    weight pat < weightAll pats := by
  cases pats with
  | nil => cases h
  | cons q pats =>
    obtain rfl : q = pat := by simpa using h
    exact Nat.le_mul_of_pos_right _ (weightAll_pos pats)

theorem weightAll_le_rowsWeight {r : Row} : ∀ {rows : List Row}, r ∈ rows →
    weightAll r.patterns ≤ rowsWeight rows
  | q :: rows, h => by
    rw [rowsWeight_cons]
    rcases List.mem_cons.1 h with rfl | h
    · exact Nat.le_add_right ..
    · exact Nat.le_trans (weightAll_le_rowsWeight h) (Nat.le_add_left ..)

theorem length_le_rowsWeight : ∀ rows : List Row, rows.length ≤ rowsWeight rows
  | [] => Nat.le_refl _
  | r :: rows => by
    have h := length_le_rowsWeight rows
    have hpos := weightAll_pos r.patterns
    rw [rowsWeight_cons, List.length_cons]
    omega

theorem arity_le_weight {t : Ty} {c : Con} : ∀ {p : Pattern}, Fits T p t → headCon p = some c →
    c ≠ .conConst .tNull → c.arity ≤ weight p
  | .patConstructor con pats, ht, hc, hne => by
    simp only [Fits] at ht
    cases hc
    obtain ⟨rfl, -⟩ | ⟨hcon, -, hpats⟩ := ht
    · exact absurd rfl hne
    · rw [← T.sub_length hcon, ← fitsAll_length hpats]
      exact Nat.le_add_left ..
  | .patBind _ pat, ht, hc, hne => arity_le_weight (p := pat) (by simpa only [Fits] using ht) hc hne

/-- A constructor of the column has no more parts than the matrix is heavy. -/
theorem arity_le_rowsWeight {B : TExpr → Prop} {t : Ty} {ts : List Ty} {rows : List Row}
    (hrows : ∀ r ∈ rows, FlatOk T B (t :: ts) r) {c : Con} (hc : HasCon c rows) (hne : c ≠ .conConst .tNull) :
    c.arity ≤ rowsWeight rows := by
  obtain ⟨r, hr, pat, hpat, hcon⟩ := hc
  obtain ⟨q, rest, hp, ht, -⟩ := (hrows r hr).uncons
  obtain rfl : q = pat := by simpa [hp] using hpat
  have h1 := arity_le_weight ht hcon hne
  have h2 := weight_lt_weightAll hpat
  have h3 := weightAll_le_rowsWeight hr
  omega

end EvilHaxe.Matcher
