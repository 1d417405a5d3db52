/-
The check for useless patterns is sound. What is reported unused is matched by nothing but what an unguarded case
before it matches, or an alternative before it in the same pattern.
-/
import EvilHaxe.Matcher.Unused
import EvilHaxe.Matcher.FirstMatch

namespace EvilHaxe.Matcher.Usefulness

open Syntax (Pos punion)

variable {V : Type} {R : Runtime V} {Ty : Type} {T : PatternTyping R Ty}

variable {isTuple : Bool} {con : Con} {p : Pos} {pats rest : List PosPattern}

/-! ## Useful rows -/

@[simp] theorem sizeAll_append : ∀ pats rest : List PosPattern, sizeAll (pats ++ rest) = sizeAll pats + sizeAll rest
  | [], rest => (Nat.zero_add _).symm
  | pat :: pats, rest => by rw [List.cons_append, sizeAll, sizeAll, sizeAll_append, Nat.add_assoc]

/-- `u` at a pattern that opens a column. -/
theorem u_node (fuel : Nat) (pM : List (List PosPattern)) (hcon : isTuple = true → con = .conConst .tNull) :
    u (fuel + 1) pM (node isTuple con p pats :: rest) = u fuel (specialize isTuple con pM) (pats ++ rest) := by
  cases isTuple with
  | true => rw [hcon rfl]; rfl
  | false => rfl

/-- With enough fuel `u` has an answer. -/
theorem u_total : ∀ (fuel : Nat) (pM : List (List PosPattern)) (q : List PosPattern), sizeAll q < fuel →
    ∃ b, u fuel pM q = some b
  | fuel + 1, pM, [], _ => ⟨_, rfl⟩
  | fuel + 1, pM, .patConstructor con pats p :: ql, h | fuel + 1, pM, .patTuple pats p :: ql, h => by
    simp only [sizeAll, size] at h
    exact u_total fuel _ (pats ++ ql) (by rw [sizeAll_append]; omega)
  | fuel + 1, pM, .patAny p :: ql, h => by
    simp only [sizeAll, size] at h
    exact u_total fuel _ ql (by omega)
  | fuel + 1, pM, .patBind v pat p :: ql, h => by
    simp only [sizeAll, size] at h
    exact u_total fuel pM (pat :: ql) (by rw [sizeAll]; omega)
  | fuel + 1, pM, .patOr pat1 pat2 p :: ql, h => by
    simp only [sizeAll, size] at h
    obtain ⟨b1, h1⟩ := u_total fuel pM (pat1 :: ql) (by rw [sizeAll]; omega)
    obtain ⟨b2, h2⟩ := u_total fuel pM (pat2 :: ql) (by rw [sizeAll]; omega)
    cases b1 with
    | true => exact ⟨true, by simp [u, h1]⟩
    | false => exact ⟨b2, by simp [u, h1, h2]⟩
  | fuel + 1, pM, .patExtractor ex pat p :: ql, _ => ⟨_, rfl⟩

/-- The answer no of `u`: every match of the row is a match of a row of the matrix. -/
def USound (R : Runtime V) (T : PatternTyping R Ty) (fuel : Nat) : Prop :=
  ∀ (pM : List (List PosPattern)) (q : List PosPattern) (tys : List (CellTy Ty)), FitsRow T q tys →
    (∀ row ∈ pM, FitsRow T row tys) → u fuel pM q = some false →
    ∀ cs : List (Cell V), RowMatches R q cs → ∃ row ∈ pM, RowMatches R row cs

theorem u_sound_node (isTuple : Bool) {fuel : Nat} (ih : USound R T fuel) {pM : List (List PosPattern)} {tys : List (CellTy Ty)}
    {cs : List (Cell V)} (hcon : isTuple = true → con = .conConst .tNull)
    (hq : FitsRow T (node isTuple con p pats :: rest) tys) (hrows : ∀ row ∈ pM, FitsRow T row tys)
    (hu : u (fuel + 1) pM (node isTuple con p pats :: rest) = some false)
    (hm : RowMatches R (node isTuple con p pats :: rest) cs) : ∃ row ∈ pM, RowMatches R row cs := by
  rw [u_node fuel pM hcon] at hu
  obtain ⟨ty, tys0, tys', rfl, ho, hpats, hrest⟩ := node_fits hcon hq
  obtain ⟨c, cs0, cs', rfl, hopen, hl, hm'⟩ := node_matches hm
  obtain ⟨row', hrow', hm''⟩ := ih _ (pats ++ rest) (tys0 ++ tys') (List.rel_append hpats hrest)
    (fun row' h => (specialize_spec ho hrows h).elim fun _ h => h.2.fits) hu (cs0 ++ cs') hm'
  obtain ⟨row, hrow, hs⟩ := specialize_spec ho hrows hrow'
  exact ⟨row, hrow, hs.back hopen (hl.symm.trans hpats.length_eq) hm''⟩

theorem u_sound (fuel : Nat) : USound R T fuel := by
  induction fuel with
  | zero => exact fun _ _ _ _ _ hu => nomatch hu
  | succ fuel ih =>
    intro pM q tys hq hrows hu cs hm
    cases q with
    | nil =>
      cases hq
      cases hm
      cases pM with
      | nil => cases hu
      | cons row pM =>
        refine ⟨row, List.mem_cons_self .., ?_⟩
        rw [List.forall₂_nil_right_iff.1 (hrows row (List.mem_cons_self ..))]
        exact .nil
    | cons pat ql =>
      obtain ⟨ty, tys', hc, hql, rfl⟩ := List.forall₂_cons_left_iff.1 hq
      obtain ⟨c, cs', hpat, hm', rfl⟩ := List.forall₂_cons_left_iff.1 hm
      match pat with
      | .patConstructor con pats p => exact u_sound_node false ih nofun hq hrows hu hm
      | .patTuple pats p => exact u_sound_node true ih (fun _ => rfl) hq hrows hu hm
      | .patAny p =>
        obtain ⟨row', hrow', hback⟩ := ih _ ql tys' hql
          (fun row' h => (default_spec (R := R) hrows h).elim fun _ h => h.2.1) hu cs' hm'
        obtain ⟨row, hrow, -, hs⟩ := default_spec (R := R) hrows hrow'
        exact ⟨row, hrow, hs hback⟩
      | .patOr pat1 pat2 p =>
        simp only [u, Option.bind_eq_bind, Option.bind_eq_some_iff] at hu
        obtain ⟨b, hb, hu⟩ := hu
        cases b with
        | true => cases hu
        | false =>
          rcases hpat with hpat | hpat
          · exact ih pM (pat1 :: ql) _ (.cons hc.1 hql) hrows hb _ (.cons hpat hm')
          · exact ih pM (pat2 :: ql) _ (.cons hc.2 hql) hrows hu _ (.cons hpat hm')
      | .patBind v pat p => exact ih pM (pat :: ql) _ (.cons hc hql) hrows hu _ (.cons hpat hm')
      | .patExtractor ex pat p => cases hu

/-! ## The matrices of `u'` as rows -/

section

variable {rows : List MatrixRow}

theorem specialize'_rows (isTuple : Bool) (con : Con) : ∀ rows : List MatrixRow, ∃ rows' : List MatrixRow,
    specialize' isTuple con (rows.map MatrixRow.p) (rows.map MatrixRow.q) (rows.map MatrixRow.r) =
      some (rows'.map MatrixRow.p, rows'.map MatrixRow.q, rows'.map MatrixRow.r) ∧
    ∀ x' ∈ rows', ∃ x ∈ rows, ∃ ps ∈ specializeRow' isTuple con x.p, x' = ⟨ps, x.q, x.r⟩
  | [] => ⟨[], rfl, nofun⟩
  | x :: rows => by
    obtain ⟨rows', h, hrows'⟩ := specialize'_rows isTuple con rows
    refine ⟨(specializeRow' isTuple con x.p).map (fun ps => ⟨ps, x.q, x.r⟩) ++ rows', ?_, fun x' hx' => ?_⟩
    · simp [specialize', h, Function.comp_def]
    · rcases List.mem_append.1 hx' with hx' | hx'
      · obtain ⟨ps, hps, rfl⟩ := List.mem_map.1 hx'
        exact ⟨x, List.mem_cons_self .., ps, hps, rfl⟩
      · obtain ⟨y, hy, hps⟩ := hrows' x' hx'
        exact ⟨y, List.mem_cons_of_mem _ hy, hps⟩

theorem transferColumn_map {α : Type} (source target : α → List PosPattern) : ∀ l : List α,
    (∀ a ∈ l, source a ≠ []) → transferColumn (l.map source) (l.map target) =
      some (l.map fun a => (source a).tail, l.map fun a => (source a).take 1 ++ target a)
  | [], _ => rfl
  | a :: l, h => by
    obtain ⟨pat, pats, ha⟩ := List.exists_cons_of_ne_nil (h a (List.mem_cons_self ..))
    simp [transferColumn, transferColumn_map source target l fun b hb => h b (List.mem_cons_of_mem _ hb), ha]

theorem processRow_append (x : PosPattern) (l q : List PosPattern) : ∀ pre : List PosPattern,
    processRow pre.length (pre ++ x :: l) q = some (x, pre ++ l ++ q)
  | [] => rfl
  | y :: pre => by
    rw [List.length_cons, List.cons_append, processRow, processRow_append x l q pre]
    rfl

theorem processRows_rows {n m : Nat} : ∀ rows : List MatrixRow,
    (∀ x ∈ rows, x.p = [] ∧ x.r.length = n + 1 + m) → ∃ rows' : List MatrixRow,
      processRows n (rows.map MatrixRow.r) (rows.map MatrixRow.q) =
        some (rows'.map MatrixRow.p, rows'.map MatrixRow.q) ∧ ∀ x' ∈ rows', ∃ x ∈ rows, Picked n m x x'
  | [], _ => ⟨[], rfl, nofun⟩
  | ⟨p, q, r⟩ :: rows, h => by
    obtain ⟨rows', hrec, hrows'⟩ := processRows_rows rows fun y hy => h y (List.mem_cons_of_mem _ hy)
    obtain ⟨rfl, hl⟩ : p = [] ∧ r.length = n + 1 + m := h _ (List.mem_cons_self ..)
    obtain ⟨pre, pat, post, rfl, rfl⟩ : ∃ pre pat post, r = pre ++ pat :: post ∧ pre.length = n :=
      ⟨r.take n, r[n], r.drop (n + 1), by simp, by simp; omega⟩
    have hpost : post.length = m := by
      rw [List.length_append, List.length_cons] at hl
      omega
    refine ⟨⟨[pat], pre ++ post ++ q, []⟩ :: rows', ?_, List.forall_mem_cons.2 ⟨?_, fun x' hx' => ?_⟩⟩
    · simp [processRows, hrec, processRow_append]
    · exact ⟨_, List.mem_cons_self .., .mk pat q rfl hpost⟩
    · obtain ⟨x, hx, hp⟩ := hrows' x' hx'
      exact ⟨x, List.mem_cons_of_mem _ hx, hp⟩

theorem picked_copy {n m : Nat} {rows' : List MatrixRow} (h : ∀ x' ∈ rows', ∃ x ∈ rows, Picked n m x x') :
    copy (rows'.map MatrixRow.q) = rows'.map MatrixRow.r := by
  rw [copy, List.map_map]
  refine List.map_congr_left fun x' hx' => ?_
  obtain ⟨x, -, hp⟩ := h x' hx'
  cases hp
  rfl

end

/-! ## `u'` is sound -/

section

/-- A bound on the number of nested calls. -/
def need (x : MatrixRow) : Nat := 2 * sizeAll x.p + sizeAll x.q + sizeAll x.r

def IsOr (pat : PosPattern) : Prop := ∃ pat1 pat2 p, pat = .patOr pat1 pat2 p

/-- With its fuel `u'` has an answer, and the answer is right. -/
def Answers (R : Runtime V) (T : PatternTyping R Ty) (fuel : Nat) : Prop :=
  ∀ (rows : List MatrixRow) (x : MatrixRow) (tys : MatrixTys Ty), x.Fits T tys → (∀ y ∈ rows, y.Fits T tys) →
    (∀ pat ∈ x.r, IsOr pat) → need x < fuel →
    ∃ res, u' fuel (rows.map MatrixRow.p) (rows.map MatrixRow.q) (rows.map MatrixRow.r) x.p x.q x.r = some res ∧
      Unused R rows x res

variable {fuel : Nat} {rows : List MatrixRow} {tys : MatrixTys Ty} {q r pl : List PosPattern}

theorem answers_node (ih : Answers R T fuel) (isTuple : Bool) (hcon : isTuple = true → con = .conConst .tNull)
    (hx : MatrixRow.Fits T ⟨node isTuple con p pats :: pl, q, r⟩ tys) (hrows : ∀ y ∈ rows, y.Fits T tys)
    (hr : ∀ pat ∈ r, IsOr pat) (hneed : need ⟨pats ++ pl, q, r⟩ < fuel) :
    ∃ res, (do
        let (pM, qM, rM) ← specialize' isTuple con (rows.map MatrixRow.p) (rows.map MatrixRow.q) (rows.map MatrixRow.r)
        u' fuel pM qM rM (pats ++ pl) q r) = some res ∧
      Unused R rows ⟨node isTuple con p pats :: pl, q, r⟩ res := by
  obtain ⟨tp, tq, tr⟩ := tys
  obtain ⟨ty, tys0, tys', rfl, ho, hpats, hpl⟩ := node_fits hcon hx.p
  obtain ⟨rows', hspec, hrows'⟩ := specialize'_rows isTuple con rows
  have hs : ∀ x' ∈ rows', ∃ x ∈ rows, ∃ ps, Specialized R T isTuple con tys0 tys' x.p ps ∧ x' = ⟨ps, x.q, x.r⟩ := by
    intro x' hx'
    obtain ⟨x, hmem, ps, hps, rfl⟩ := hrows' x' hx'
    obtain ⟨pat, rest, hc, hrest, hxp⟩ := List.forall₂_cons_right_iff.1 (hrows x hmem).p
    rw [hxp] at hps
    exact ⟨x, hmem, ps, hxp ▸ specializePattern'_spec ho hrest hc hps, rfl⟩
  obtain ⟨res, hu, hunused⟩ := ih rows' ⟨pats ++ pl, q, r⟩ ⟨tys0 ++ tys', tq, tr⟩
    ⟨List.rel_append hpats hpl, hx.q, hx.r⟩ (fun x' hx' => by
      obtain ⟨x, hmem, ps, hs, rfl⟩ := hs x' hx'
      exact ⟨hs.fits, (hrows x hmem).q, (hrows x hmem).r⟩) hr hneed
  refine ⟨res, ?_, unused_node hpats.length_eq hs hunused⟩
  rw [hspec]
  exact hu

theorem combine_pos (p p' : Pos) (e : Useless × Pos) : combine (.pos p, p') e = .pos p := by
  obtain ⟨_ | _ | _, _⟩ := e <;> rfl

theorem combine_true_ne_false {p : Pos} {e : Useless × Pos} : combine (.true, p) e ≠ .false := by
  obtain ⟨_ | _ | _, _⟩ := e <;> exact nofun

/-- One step of the fold over the third group of columns. -/
theorem alternative_spec (ih : Answers R T fuel) {pre post : List PosPattern} {pat1 pat2 : PosPattern} {et : Useless}
    (hx : MatrixRow.Fits T ⟨[], q, pre ++ .patOr pat1 pat2 p :: post⟩ tys) (hrows : ∀ y ∈ rows, y.Fits T tys)
    (hneed : need ⟨[], q, pre ++ .patOr pat1 pat2 p :: post⟩ < fuel + 1) (hne : et ≠ .false)
    (het : Unused R rows ⟨[], q, pre ++ .patOr pat1 pat2 p :: post⟩ et) :
    ∃ et', alternative (u' fuel) (rows.map MatrixRow.q) (rows.map MatrixRow.r) q (pre ++ .patOr pat1 pat2 p :: post)
        (pre.length, et) (.patOr pat1 pat2 p) = some (pre.length + 1, et') ∧ et' ≠ .false ∧
      Unused R rows ⟨[], q, pre ++ .patOr pat1 pat2 p :: post⟩ et' := by
  obtain ⟨tp, tq, tr⟩ := tys
  obtain rfl : tp = [] := List.forall₂_nil_left_iff.1 hx.p
  obtain ⟨tpre, ty, tpost, rfl, hpre, hor, hpost⟩ := forall₂_split hx.r
  have hlen : ∀ y ∈ rows, y.p = [] ∧ y.r.length = pre.length + 1 + post.length := fun y hy => by
    refine ⟨List.forall₂_nil_right_iff.1 (hrows y hy).p, ?_⟩
    rw [(hrows y hy).r.length_eq, ← hx.r.length_eq, List.length_append, List.length_cons]
    omega
  obtain ⟨rows', hpicked, hrows'⟩ := processRows_rows rows hlen
  have hfits' : ∀ x' ∈ rows', x'.Fits T ⟨[ty], tpre ++ tpost ++ tq, []⟩ := fun x' hx' => by
    obtain ⟨y, hy, hp⟩ := hrows' x' hx'
    exact hp.fits hpre.length_eq.symm (hrows y hy)
  have hfits1 {pat : PosPattern} (hpat : FitsCell T pat.erase ty) :
      MatrixRow.Fits T ⟨[pat], pre ++ post ++ q, []⟩ ⟨[ty], tpre ++ tpost ++ tq, []⟩ :=
    ⟨.cons hpat .nil, List.rel_append (List.rel_append hpre hpost) hx.q, .nil⟩
  simp only [need, sizeAll_append, sizeAll, size] at hneed
  obtain ⟨et1, hu1, h1⟩ := ih rows' ⟨[pat1], pre ++ post ++ q, []⟩ _ (hfits1 hor.1) hfits' nofun (by
    simp only [need, sizeAll_append, sizeAll]
    omega)
  have hrows2 : ∀ x' ∈ rows' ++ [⟨[pat1], pre ++ post ++ q, []⟩], ∃ x ∈ rows ++ [⟨[], q, pre ++ pat1 :: post⟩],
      Picked pre.length post.length x x' := by
    intro x' hx'
    rcases List.mem_append.1 hx' with hx' | hx'
    · obtain ⟨y, hy, hp⟩ := hrows' x' hx'
      exact ⟨y, List.mem_append_left _ hy, hp⟩
    · obtain rfl := List.mem_singleton.1 hx'
      exact ⟨_, List.mem_append_right _ (List.mem_singleton_self _), .mk pat1 q rfl rfl⟩
  obtain ⟨et2, hu2, h2⟩ := ih (rows' ++ [⟨[pat1], pre ++ post ++ q, []⟩]) ⟨[pat2], pre ++ post ++ q, []⟩ _
    (hfits1 hor.2) (fun x' hx' => (List.mem_append.1 hx').elim (hfits' x') fun h =>
      List.mem_singleton.1 h ▸ hfits1 hor.1) nofun (by
    simp only [need, sizeAll_append, sizeAll]
    omega)
  have hcopy2 : copy (rows'.map MatrixRow.q ++ [pre ++ post ++ q]) =
      (rows' ++ [(⟨[pat1], pre ++ post ++ q, []⟩ : MatrixRow)]).map MatrixRow.r := by
    rw [← picked_copy hrows2, List.map_append]
    rfl
  rw [← hcopy2, List.map_append, List.map_append] at hu2
  have hstep := unused_or (p := p) (unused_picked hrows' h1) (unused_picked hrows2 h2)
  refine ⟨combine (et, punion pat1.pos pat2.pos) (combine (et1, pat1.pos) (et2, pat2.pos), punion pat1.pos pat2.pos),
    ?_, ?_, ?_⟩
  · simp only [alternative, hpicked, processRow_append, Option.bind_eq_bind, Option.bind_some, picked_copy hrows', hu1]
    exact congrArg (Option.bind · _) hu2
  · cases et with
    | false => exact absurd rfl hne
    | pos p0 =>
      rw [combine_pos]
      exact hne
    | true => exact combine_true_ne_false
  · cases et with
    | false => exact absurd rfl hne
    | pos p0 =>
      rw [combine_pos]
      exact het
    | true => exact hstep

/-- The fold over the third group of columns. -/
theorem fold_spec (ih : Answers R T fuel) (hx : MatrixRow.Fits T ⟨[], q, r⟩ tys) (hrows : ∀ y ∈ rows, y.Fits T tys)
    (hor : ∀ pat ∈ r, IsOr pat) (hneed : need ⟨[], q, r⟩ < fuel + 1) :
    ∀ (rest pre : List PosPattern) (et : Useless), r = pre ++ rest → et ≠ .false → Unused R rows ⟨[], q, r⟩ et →
      ∃ i et', rest.foldlM (alternative (u' fuel) (rows.map MatrixRow.q) (rows.map MatrixRow.r) q r)
        (pre.length, et) = some (i, et') ∧ Unused R rows ⟨[], q, r⟩ et' := by
  intro rest
  induction rest with
  | nil => exact fun pre et _ _ het => ⟨_, et, rfl, het⟩
  | cons pat post ihrest =>
    intro pre et heq hne het
    subst heq
    obtain ⟨pat1, pat2, p, rfl⟩ := hor pat (by simp)
    obtain ⟨et', hstep, hne', het'⟩ := alternative_spec ih hx hrows hneed hne het
    obtain ⟨i, et'', hfold, het''⟩ := ihrest (pre ++ [.patOr pat1 pat2 p]) et' (by simp) hne' het'
    refine ⟨i, et'', ?_, het''⟩
    rw [List.foldlM_cons, hstep]
    simpa using hfold

theorem empty_matches {row : List PosPattern} {ts : List (CellTy Ty)} {cs : List (Cell V)} (h : FitsRow T [] ts)
    (hrow : FitsRow T row ts) (hm : RowMatches R [] cs) : RowMatches R row cs := by
  cases h
  cases hrow
  exact hm

theorem ne_nil_of_fits {row : List PosPattern} {ty : CellTy Ty} {ts : List (CellTy Ty)}
    (h : FitsRow T row (ty :: ts)) : row ≠ [] := by
  cases h
  exact nofun

/-- The first column goes to the second group. -/
def toQ (x : MatrixRow) : MatrixRow := ⟨x.p.tail, x.p.take 1 ++ x.q, x.r⟩

/-- The first column goes to the third group. -/
def toR (x : MatrixRow) : MatrixRow := ⟨x.p.tail, x.q, x.p.take 1 ++ x.r⟩

theorem toQ_fits {x : MatrixRow} {ty : CellTy Ty} {tp tq tr : List (CellTy Ty)} (h : x.Fits T ⟨ty :: tp, tq, tr⟩) :
    (toQ x).Fits T ⟨tp, ty :: tq, tr⟩ := by
  obtain ⟨xp, xq, xr⟩ := x
  obtain ⟨pat, ps, hc, hps, rfl⟩ := List.forall₂_cons_right_iff.1 h.p
  exact ⟨hps, .cons hc h.q, h.r⟩

theorem toR_fits {x : MatrixRow} {ty : CellTy Ty} {tp tq tr : List (CellTy Ty)} (h : x.Fits T ⟨ty :: tp, tq, tr⟩) :
    (toR x).Fits T ⟨tp, tq, ty :: tr⟩ := by
  obtain ⟨xp, xq, xr⟩ := x
  obtain ⟨pat, ps, hc, hps, rfl⟩ := List.forall₂_cons_right_iff.1 h.p
  exact ⟨hps, h.q, .cons hc h.r⟩

theorem answers (fuel : Nat) : Answers R T fuel := by
  induction fuel with
  | zero => exact fun _ _ _ _ _ _ h => absurd h (Nat.not_lt_zero _)
  | succ fuel ih =>
    rintro rows ⟨p, q, r⟩ ⟨tp, tq, tr⟩ hx hrows hor hneed
    cases p with
    | nil =>
      cases r with
      | nil =>
        simp only [need, sizeAll] at hneed
        obtain ⟨b, hb⟩ := u_total (fuel + 1) (rows.map MatrixRow.q) q (by omega)
        cases b with
        | true => exact ⟨.true, by simp [u', hb], trivial⟩
        | false =>
          refine ⟨.false, by simp [u', hb], fun cs hm => ?_⟩
          obtain ⟨row, hrow, hmq⟩ := u_sound (fuel + 1) _ q tq hx.q (fun row hrow => by
            obtain ⟨y, hy, rfl⟩ := List.mem_map.1 hrow
            exact (hrows y hy).q) hb cs.q hm.q
          obtain ⟨y, hy, rfl⟩ := List.mem_map.1 hrow
          exact ⟨y, hy, empty_matches hx.p (hrows y hy).p hm.p, hmq, empty_matches hx.r (hrows y hy).r hm.r⟩
      | cons pat r =>
        obtain ⟨i, et, hfold, het⟩ := fold_spec ih hx hrows hor hneed (pat :: r) [] .true rfl nofun trivial
        refine ⟨et, ?_, het⟩
        rw [List.length_nil] at hfold
        simp only [u', hfold]
        rfl
    | cons pat pl =>
      match pat with
      | .patConstructor con pats p =>
        simp only [need, sizeAll, size] at hneed
        exact answers_node ih false nofun hx hrows hor (by
          simp only [need, sizeAll_append]
          omega)
      | .patTuple pats p =>
        simp only [need, sizeAll, size] at hneed
        exact answers_node ih true (fun _ => rfl) hx hrows hor (by
          simp only [need, sizeAll_append]
          omega)
      | .patAny p =>
        obtain ⟨ty, tp, hc, hpl, rfl⟩ := List.forall₂_cons_left_iff.1 hx.p
        simp only [need, sizeAll, size] at hneed
        obtain ⟨res, hu, hunused⟩ := ih (rows.map toQ) ⟨pl, .patAny p :: q, r⟩ ⟨tp, ty :: tq, tr⟩
          ⟨hpl, .cons hc hx.q, hx.r⟩ (fun x' hx' => by
            obtain ⟨x, hmem, rfl⟩ := List.mem_map.1 hx'
            exact toQ_fits (hrows x hmem)) hor (by
            simp only [need, sizeAll, size]
            omega)
        refine ⟨res, ?_, unused_toQ (fun x' hx' => ?_) hunused⟩
        · rw [u', transferColumn_map MatrixRow.p MatrixRow.q rows fun x hmem => ne_nil_of_fits (hrows x hmem).p]
          simpa [toQ, Function.comp_def] using hu
        · obtain ⟨x, hmem, rfl⟩ := List.mem_map.1 hx'
          obtain ⟨pat', ps, hp⟩ := List.exists_cons_of_ne_nil (ne_nil_of_fits (hrows x hmem).p)
          exact ⟨pat', x, hmem, ps, hp, by simp [toQ, hp]⟩
      | .patOr pat1 pat2 p =>
        obtain ⟨ty, tp, hc, hpl, rfl⟩ := List.forall₂_cons_left_iff.1 hx.p
        simp only [need, sizeAll, size] at hneed
        obtain ⟨res, hu, hunused⟩ := ih (rows.map toR) ⟨pl, q, .patOr pat1 pat2 p :: r⟩ ⟨tp, tq, ty :: tr⟩
          ⟨hpl, hx.q, .cons hc hx.r⟩ (fun x' hx' => by
            obtain ⟨x, hmem, rfl⟩ := List.mem_map.1 hx'
            exact toR_fits (hrows x hmem)) (List.forall_mem_cons.2 ⟨⟨pat1, pat2, p, rfl⟩, hor⟩) (by
            simp only [need, sizeAll, size]
            omega)
        refine ⟨res, ?_, unused_toR (fun x' hx' => ?_) hunused⟩
        · rw [u', transferColumn_map MatrixRow.p MatrixRow.r rows fun x hmem => ne_nil_of_fits (hrows x hmem).p]
          simpa [toR, Function.comp_def] using hu
        · obtain ⟨x, hmem, rfl⟩ := List.mem_map.1 hx'
          obtain ⟨pat', ps, hp⟩ := List.exists_cons_of_ne_nil (ne_nil_of_fits (hrows x hmem).p)
          exact ⟨pat', x, hmem, ps, hp, by simp [toR, hp]⟩
      | .patBind v pat p =>
        obtain ⟨ty, tp, hc, hpl, rfl⟩ := List.forall₂_cons_left_iff.1 hx.p
        simp only [need, sizeAll, size] at hneed
        obtain ⟨res, hu, hunused⟩ := ih rows ⟨pat :: pl, q, r⟩ ⟨ty :: tp, tq, tr⟩ ⟨.cons hc hpl, hx.q, hx.r⟩ hrows hor (by
          simp only [need, sizeAll]
          omega)
        exact ⟨res, hu, unused_bind hunused⟩
      | .patExtractor ex pat p => exact ⟨.true, rfl, trivial⟩

end

/-! ## What is reported -/

/-- An unguarded one of the cases matches. -/
def MatchedBy (R : Runtime V) (cases : List PosCase) (cs : List (Cell V)) : Prop :=
  ∃ c ∈ cases, c.caseGuard = none ∧ RowMatches R c.patterns cs

/-- What a warning about the case `c` behind the cases `pre` says. Nothing matches the case, or the alternative at the
position of the warning, but what an unguarded case before it matches, or an alternative before it. -/
def Justified (R : Runtime V) (pre : List PosCase) (c : PosCase) : Warning → Prop
  | .unusedCase p => p = c.casePos ∧ ∀ cs : List (Cell V), RowMatches R c.patterns cs → MatchedBy R pre cs
  | .unusedPattern p => ∃ pats before, RestrictsRow c.patterns p pats before ∧
      ∀ cs : List (Cell V), RowMatches R pats cs → MatchedBy R pre cs ∨ ∃ b ∈ before, RowMatches R b cs

/-- A case as a row of which no column has been looked at. -/
def startRow (c : PosCase) : MatrixRow := ⟨c.patterns, [], []⟩

theorem startRow_matches {c : PosCase} {cs : MatrixCells V} :
    (startRow c).Matches R cs ↔ RowMatches R c.patterns cs.p ∧ cs.q = [] ∧ cs.r = [] := by
  constructor
  · rintro ⟨hp, hq, hr⟩
    exact ⟨hp, List.forall₂_nil_left_iff.1 hq, List.forall₂_nil_left_iff.1 hr⟩
  · rintro ⟨hp, hq, hr⟩
    exact ⟨hp, hq ▸ .nil, hr ▸ .nil⟩

theorem covered_start {pre : List PosCase} {cs : MatrixCells V} (hpre : ∀ c ∈ pre, c.caseGuard = none)
    (h : Covered R (pre.map startRow) cs) : MatchedBy R pre cs.p := by
  obtain ⟨x, hx, hm⟩ := h
  obtain ⟨c, hc, rfl⟩ := List.mem_map.1 hx
  exact ⟨c, hc, hpre c hc, (startRow_matches.1 hm).1⟩

theorem justified_of_unused {pre : List PosCase} {c : PosCase} (hpre : ∀ c ∈ pre, c.caseGuard = none) {p : Pos}
    (h : Unused R (pre.map startRow) (startRow c) (.pos p)) : Justified R pre c (.unusedPattern p) := by
  obtain ⟨y, before, hr, hy⟩ := h
  generalize hx : startRow c = x at hr
  cases hr with
  | inP q r hr =>
    obtain ⟨rfl, rfl, rfl⟩ := MatrixRow.mk.inj hx
    refine ⟨_, _, hr, fun cs hm => ?_⟩
    refine (hy ⟨cs, [], []⟩ ⟨hm, .nil, .nil⟩).imp (covered_start hpre) ?_
    rintro ⟨b, hb, hmb⟩
    obtain ⟨ps, hps, rfl⟩ := List.mem_map.1 hb
    exact ⟨ps, hps, hmb.p⟩
  | inR p q hr =>
    obtain ⟨rfl, rfl, rfl⟩ := MatrixRow.mk.inj hx
    generalize hn : ([] : List PosPattern) = l at hr
    cases hr
    simp at hn

/-- `check_case` does not fail, and what it reports is right. -/
theorem checkCase_spec {pre : List PosCase} {c : PosCase} {tys : List (CellTy Ty)}
    (hguards : ∀ c ∈ pre, c.caseGuard = none) (hpre : ∀ c ∈ pre, FitsRow T c.patterns tys)
    (hc : FitsRow T c.patterns tys) :
    ∃ w, checkCase pre c = some w ∧ ∀ w', w = some w' → Justified R pre c w' := by
  obtain ⟨res, hu, hunused⟩ := answers (R := R) (T := T) (2 * sizeAll c.patterns + 1) (pre.map startRow) (startRow c)
    ⟨tys, [], []⟩ ⟨hc, .nil, .nil⟩ (fun y hy => by
      obtain ⟨c', hc', rfl⟩ := List.mem_map.1 hy
      exact ⟨hpre c' hc', .nil, .nil⟩) nofun (by
      simp only [need, startRow, sizeAll]
      omega)
  have hrows : u' (2 * sizeAll c.patterns + 1) (pre.map PosCase.patterns) (copy (pre.map PosCase.patterns))
      (copy (pre.map PosCase.patterns)) c.patterns [] [] = some res := by
    simpa [copy, startRow, Function.comp_def] using hu
  simp only [checkCase, hrows, Option.bind_eq_bind, Option.bind_some]
  cases res with
  | false =>
    refine ⟨_, rfl, ?_⟩
    rintro _ ⟨⟩
    exact ⟨rfl, fun cs hm => covered_start hguards (hunused ⟨cs, [], []⟩ (startRow_matches.2 ⟨hm, rfl, rfl⟩))⟩
  | pos p =>
    refine ⟨_, rfl, ?_⟩
    rintro _ ⟨⟩
    exact justified_of_unused hguards hunused
  | true => exact ⟨_, rfl, nofun⟩

/-- The cases that `check` passes on. -/
def unguarded (cases : List PosCase) : List PosCase := cases.filter fun c => c.caseGuard = none

theorem Justified.of_unguarded {pre : List PosCase} {c : PosCase} {w : Warning}
    (h : Justified R (unguarded pre) c w) : Justified R pre c w := by
  have hmatched : ∀ {cs : List (Cell V)}, MatchedBy R (unguarded pre) cs → MatchedBy R pre cs := by
    rintro cs ⟨c', hc', h⟩
    exact ⟨c', List.mem_of_mem_filter hc', h⟩
  cases w with
  | unusedCase p => exact ⟨h.1, fun cs hm => hmatched (h.2 cs hm)⟩
  | unusedPattern p =>
    obtain ⟨pats, before, hr, h⟩ := h
    exact ⟨pats, before, hr, fun cs hm => (h cs hm).imp hmatched id⟩

theorem checkFrom_spec {tys : List (CellTy Ty)} : ∀ (cases done : List PosCase),
    (∀ c ∈ done ++ cases, FitsRow T c.patterns tys) →
    ∃ ws, checkFrom (unguarded done) cases = some ws ∧ ws.length = cases.length ∧
      ∀ pre c post, cases = pre ++ c :: post → ∀ w, ws[pre.length]? = some (some w) → Justified R (done ++ pre) c w
  | [], done, _ => ⟨[], rfl, rfl, fun pre c post h => by simp at h⟩
  | c :: cases, done, h => by
    have hguards : ∀ c ∈ unguarded done, c.caseGuard = none := fun c hc => of_decide_eq_true (List.mem_filter.1 hc).2
    have hdone : ∀ c ∈ unguarded done, FitsRow T c.patterns tys := fun c hc =>
      h c (List.mem_append_left _ (List.mem_of_mem_filter hc))
    obtain ⟨w, hw, hjust⟩ := checkCase_spec (R := R) hguards hdone (h c (by simp))
    obtain ⟨ws, hws, hl, hrest⟩ := checkFrom_spec cases (done ++ [c]) (by simpa using h)
    have hacc : (if c.caseGuard = none then unguarded done ++ [c] else unguarded done) = unguarded (done ++ [c]) := by
      rw [unguarded, unguarded, List.filter_append]
      split <;> simp [*]
    refine ⟨w :: ws, ?_, by simp [hl], ?_⟩
    · simp [checkFrom, hw, hacc, hws]
    · rintro (_ | ⟨c0, pre⟩) c' post heq w' hget
      · obtain ⟨rfl, rfl⟩ := List.cons.inj heq
        rw [List.append_nil]
        exact (hjust w' (by simpa using hget)).of_unguarded
      · obtain ⟨rfl, rfl⟩ := List.cons.inj heq
        have hjust := hrest pre c' post rfl w' (by simpa using hget)
        rwa [List.append_assoc] at hjust

/-- `check` does not fail, and what it reports of a case is right. -/
theorem check_sound (R : Runtime V) (T : PatternTyping R Ty) (tys : List (CellTy Ty)) (cases : List PosCase)
    (htyped : ∀ c ∈ cases, FitsRow T c.patterns tys) :
    ∃ ws, check cases = some ws ∧ ws.length = cases.length ∧
      ∀ pre c post, cases = pre ++ c :: post → ∀ w, ws[pre.length]? = some (some w) → Justified R pre c w := by
  obtain ⟨ws, hws, hl, h⟩ := checkFrom_spec (R := R) cases [] htyped
  exact ⟨ws, hws, hl, h⟩

/-! ## An alternative behind its like -/

def posInt (i : Int) (p : Pos) : PosPattern := .patConstructor (.conConst (.tInt i)) [] p

/-- `case 1 | 1:` -/
def duplicateCases : List PosCase :=
  [⟨none, ⟨0, 10⟩, [.patOr (posInt 1 ⟨5, 6⟩) (posInt 1 ⟨9, 10⟩) ⟨5, 10⟩]⟩]

/-- The second `1` is reported. There is no case before this one, and `1` matches it. -/
theorem duplicate_alternative : check duplicateCases = some [some (.unusedPattern ⟨9, 10⟩)] ∧
    (∀ c ∈ duplicateCases, FitsRow nullTyping c.patterns [.one ()]) ∧
    (∀ c ∈ duplicateCases, RestrictsRow c.patterns ⟨9, 10⟩ [posInt 1 ⟨9, 10⟩] [[posInt 1 ⟨5, 6⟩]]) ∧
    RowMatches intRuntime [posInt 1 ⟨9, 10⟩] [.one (some 1)] ∧ ¬ MatchedBy intRuntime [] [.one (some 1)] := by
  have hint : Fits nullTyping (intPattern 1) () := .inr ⟨⟨1, rfl⟩, nofun, trivial⟩
  refine ⟨by decide, List.forall_mem_singleton.2 (.cons ⟨hint, hint⟩ .nil), List.forall_mem_singleton.2 ?_, ?_, nofun⟩
  · exact .mk [] [] (.orRight _ _ _)
  · exact .cons ⟨[], List.mem_singleton_self _⟩ .nil

/-- `case 1: case 2 | 1:` -/
def laterCases : List PosCase :=
  [⟨none, ⟨0, 7⟩, [posInt 1 ⟨5, 6⟩]⟩, ⟨none, ⟨8, 18⟩, [.patOr (posInt 2 ⟨13, 14⟩) (posInt 1 ⟨17, 18⟩) ⟨13, 18⟩]⟩]

theorem check_sound_later : ∃ ws, check laterCases = some ws ∧ ws.length = 2 ∧
    Justified intRuntime (laterCases.take 1) ⟨none, ⟨8, 18⟩, [.patOr (posInt 2 ⟨13, 14⟩) (posInt 1 ⟨17, 18⟩) ⟨13, 18⟩]⟩
      (.unusedPattern ⟨17, 18⟩) := by
  have hint (i : Int) : Fits nullTyping (intPattern i) () := .inr ⟨⟨i, rfl⟩, nofun, trivial⟩
  obtain ⟨ws, hws, hl, h⟩ := check_sound intRuntime nullTyping [.one ()] laterCases
    (List.forall_mem_cons.2 ⟨.cons (hint 1) .nil, List.forall_mem_singleton.2 (.cons ⟨hint 2, hint 1⟩ .nil)⟩)
  have hcheck : check laterCases = some [none, some (.unusedPattern ⟨17, 18⟩)] := by decide
  obtain rfl := Option.some.inj (hws.symm.trans hcheck)
  exact ⟨_, hws, hl, h (laterCases.take 1) _ [] rfl _ rfl⟩

end EvilHaxe.Matcher.Usefulness
