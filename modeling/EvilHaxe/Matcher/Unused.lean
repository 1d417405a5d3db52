/-
What an answer of `u'` says of a case and the rows before it. The matrices of `u'` are read as one list of rows with
three groups of columns; each step of `u'` turns the answer on a smaller matrix into one on the matrix.
-/
import EvilHaxe.Matcher.Useless

namespace EvilHaxe.Matcher.Usefulness

open Syntax (Pos punion)

variable {V : Type} {R : Runtime V} {Ty : Type} {T : PatternTyping R Ty}

variable {isTuple : Bool} {con : Con} {p : Pos} {pats rest : List PosPattern}

/-! ## Rows in three groups of columns -/

/-- A row of the matrices of `u'`, or the case itself: the columns still to be looked at, those with wildcards of
the case and those with its or-patterns. -/
structure MatrixRow where
  p : List PosPattern
  q : List PosPattern
  r : List PosPattern

/-- What a row is compared with. -/
structure MatrixCells (V : Type) where
  p : List (Cell V)
  q : List (Cell V)
  r : List (Cell V)

structure MatrixTys (Ty : Type) where
  p : List (CellTy Ty)
  q : List (CellTy Ty)
  r : List (CellTy Ty)

structure MatrixRow.Matches (R : Runtime V) (x : MatrixRow) (cs : MatrixCells V) : Prop where
  p : RowMatches R x.p cs.p
  q : RowMatches R x.q cs.q
  r : RowMatches R x.r cs.r

structure MatrixRow.Fits (T : PatternTyping R Ty) (x : MatrixRow) (tys : MatrixTys Ty) : Prop where
  p : FitsRow T x.p tys.p
  q : FitsRow T x.q tys.q
  r : FitsRow T x.r tys.r

/-- Some row matches. -/
def Covered (R : Runtime V) (rows : List MatrixRow) (cs : MatrixCells V) : Prop := ∃ x ∈ rows, x.Matches R cs

/-- `Restricts` in the columns of the first or the last group. -/
inductive RestrictsMatrix : MatrixRow → Pos → MatrixRow → List MatrixRow → Prop
  | inP {ps ps' : List PosPattern} {at' : Pos} {before : List (List PosPattern)} (q r : List PosPattern) :
    RestrictsRow ps at' ps' before → RestrictsMatrix ⟨ps, q, r⟩ at' ⟨ps', q, r⟩ (before.map fun b => ⟨b, q, r⟩)
  | inR {rs rs' : List PosPattern} {at' : Pos} {before : List (List PosPattern)} (p q : List PosPattern) :
    RestrictsRow rs at' rs' before → RestrictsMatrix ⟨p, q, rs⟩ at' ⟨p, q, rs'⟩ (before.map fun b => ⟨p, q, b⟩)

/-- What an answer of `u'` says of the case `x` and the rows before it. -/
def Unused (R : Runtime V) (rows : List MatrixRow) (x : MatrixRow) : Useless → Prop
  | .false => ∀ cs : MatrixCells V, x.Matches R cs → Covered R rows cs
  | .pos p => ∃ y before, RestrictsMatrix x p y before ∧
      ∀ cs : MatrixCells V, y.Matches R cs → Covered R rows cs ∨ ∃ b ∈ before, b.Matches R cs
  | .true => True

/-- A restricted row has its columns where the row has them. -/
structure SameShape (x y : MatrixRow) : Prop where
  p : y.p.length = x.p.length
  q : y.q = x.q
  r : y.r.length = x.r.length

theorem RestrictsMatrix.shape {x y : MatrixRow} {at' : Pos} {before : List MatrixRow}
    (h : RestrictsMatrix x at' y before) : SameShape x y ∧ ∀ b ∈ before, SameShape x b := by
  cases h with
  | inP q r h =>
    cases h with
    | mk pre post h =>
      refine ⟨⟨by simp, rfl, rfl⟩, fun b hb => ?_⟩
      simp only [List.map_map, List.mem_map, Function.comp] at hb
      obtain ⟨b', -, rfl⟩ := hb
      exact ⟨by simp, rfl, rfl⟩
  | inR p q h =>
    cases h with
    | mk pre post h =>
      refine ⟨⟨rfl, rfl, by simp⟩, fun b hb => ?_⟩
      simp only [List.map_map, List.mem_map, Function.comp] at hb
      obtain ⟨b', -, rfl⟩ := hb
      exact ⟨rfl, rfl, by simp⟩

/-- The answer on `x` is one on `f x` where the values of `f x` become values of `x`. -/
theorem Unused.lift {rows rows1 : List MatrixRow} {x : MatrixRow} {res : Useless}
    (f : MatrixRow → MatrixRow) (Becomes : MatrixCells V → MatrixCells V → Prop)
    (hcovered : ∀ cs cs1, Becomes cs cs1 → Covered R rows1 cs1 → Covered R rows cs)
    (hopen : ∀ z cs, SameShape x z → (f z).Matches R cs → ∃ cs1, Becomes cs cs1 ∧ z.Matches R cs1)
    (hclose : ∀ z cs cs1, SameShape x z → Becomes cs cs1 → z.Matches R cs1 → (f z).Matches R cs)
    (hrestrict : ∀ p y before, RestrictsMatrix x p y before → RestrictsMatrix (f x) p (f y) (before.map f))
    (h : Unused R rows1 x res) : Unused R rows (f x) res := by
  cases res with
  | false =>
    intro cs hm
    obtain ⟨cs1, hb, hm1⟩ := hopen x cs ⟨rfl, rfl, rfl⟩ hm
    exact hcovered cs cs1 hb (h cs1 hm1)
  | pos p =>
    obtain ⟨y, before, hr, hy⟩ := h
    obtain ⟨hshape, hbefore⟩ := hr.shape
    refine ⟨f y, before.map f, hrestrict p y before hr, fun cs hm => ?_⟩
    obtain ⟨cs1, hb, hm1⟩ := hopen y cs hshape hm
    refine (hy cs1 hm1).imp (hcovered cs cs1 hb) ?_
    rintro ⟨b, hb', hm'⟩
    exact ⟨f b, List.mem_map_of_mem hb', hclose b cs cs1 (hbefore b hb') hb hm'⟩
  | true => trivial

/-! ## The steps of `u'` -/

section

variable {rows rows' : List MatrixRow} {tys : MatrixTys Ty} {q r pl : List PosPattern} {res : Useless}

/-- A column opened by a node with `n` patterns. -/
inductive CellsOpened (R : Runtime V) (isTuple : Bool) (con : Con) (n : Nat) : MatrixCells V → MatrixCells V → Prop
  | mk {c : Cell V} {cs0 : List (Cell V)} (cp cq cr : List (Cell V)) (h : CellOpens R isTuple con c cs0)
      (hl : cs0.length = n) : CellsOpened R isTuple con n ⟨c :: cp, cq, cr⟩ ⟨cs0 ++ cp, cq, cr⟩

theorem restricts_node (isTuple : Bool) (con : Con) (p : Pos) {pats' : List PosPattern} {at' : Pos}
    {before : List (List PosPattern)}
    (h : RestrictsRow pats at' pats' before) :
    Restricts (node isTuple con p pats) at' (node isTuple con p pats') (before.map (node isTuple con p)) := by
  cases h with
  | mk pre post h =>
    rw [List.map_map]
    cases isTuple with
    | true => exact .tuple pre post p h
    | false => exact .constructor con pre post p h

/-- The first `n` columns, closed again. -/
def closeNode (isTuple : Bool) (con : Con) (p : Pos) (n : Nat) (z : MatrixRow) : MatrixRow :=
  ⟨node isTuple con p (z.p.take n) :: z.p.drop n, z.q, z.r⟩

/-- An alternative in the opened columns is one in the node, or in the columns behind it. -/
theorem restrictsRow_append {ps' : List PosPattern} {at' : Pos} {before : List (List PosPattern)}
    (h : RestrictsRow (pats ++ pl) at' ps' before) :
    (∃ pats' bs, RestrictsRow pats at' pats' bs ∧ ps' = pats' ++ pl ∧ before = bs.map (· ++ pl)) ∨
      ∃ pl' bs, RestrictsRow pl at' pl' bs ∧ ps' = pats ++ pl' ∧ before = bs.map (pats ++ ·) := by
  generalize hx : pats ++ pl = x at h
  cases h with
  | mk pre post h =>
    obtain ⟨a, rfl, rfl⟩ | ⟨c, rfl, hc⟩ := List.append_eq_append_iff.1 hx
    · refine .inr ⟨_, _, .mk a post h, by simp, ?_⟩
      simp [Function.comp_def]
    · cases c with
      | nil =>
        obtain rfl : _ = pl := hc
        refine .inr ⟨_, _, .mk [] post h, by simp, ?_⟩
        simp [Function.comp_def]
      | cons x c =>
        obtain ⟨rfl, rfl⟩ := List.cons.inj hc
        refine .inl ⟨_, _, .mk pre c h, by simp, ?_⟩
        simp [Function.comp_def]

theorem restrictsRow_cons (pat : PosPattern) {ps' : List PosPattern} {at' : Pos} {before : List (List PosPattern)}
    (h : RestrictsRow pl at' ps' before) : RestrictsRow (pat :: pl) at' (pat :: ps') (before.map (pat :: ·)) := by
  cases h with
  | mk pre post h =>
    rw [List.map_map]
    exact .mk (pat :: pre) post h

theorem restricts_closeNode {y : MatrixRow} {at' : Pos} {before : List MatrixRow}
    (h : RestrictsMatrix ⟨pats ++ pl, q, r⟩ at' y before) :
    RestrictsMatrix ⟨node isTuple con p pats :: pl, q, r⟩ at' (closeNode isTuple con p pats.length y)
      (before.map (closeNode isTuple con p pats.length)) := by
  generalize hx : (⟨pats ++ pl, q, r⟩ : MatrixRow) = x at h
  cases h with
  | inP q' r' h =>
    obtain ⟨rfl, rfl, rfl⟩ := MatrixRow.mk.inj hx
    obtain ⟨pats', bs, hpats, rfl, rfl⟩ | ⟨pl', bs, hpl, rfl, rfl⟩ := restrictsRow_append h
    · have hl : pats'.length = pats.length ∧ ∀ b ∈ bs, b.length = pats.length := by
        cases hpats
        simp
      have hnode := RestrictsMatrix.inP q r (.mk [] pl (restricts_node isTuple con p hpats))
      rw [closeNode, ← hl.1, List.take_left, List.drop_left]
      rw [List.map_map, List.map_map] at hnode
      rw [List.map_map, List.map_map]
      refine (List.map_congr_left fun b hb => ?_) ▸ hnode
      simp only [Function.comp, closeNode, hl.1, ← hl.2 b hb, List.take_left, List.drop_left]
      rfl
    · have hnode := RestrictsMatrix.inP q r (restrictsRow_cons (node isTuple con p pats) hpl)
      simpa [closeNode, Function.comp_def] using hnode
  | inR p' q' h =>
    obtain ⟨rfl, rfl, rfl⟩ := MatrixRow.mk.inj hx
    have hnode := RestrictsMatrix.inR (node isTuple con p pats :: pl) q h
    simpa [closeNode, Function.comp_def] using hnode

/-- A specialised matrix answers for the matrix. -/
theorem unused_node {tys0 tys' : List (CellTy Ty)} (hl : pats.length = tys0.length)
    (hrows : ∀ x' ∈ rows', ∃ x ∈ rows, ∃ ps, Specialized R T isTuple con tys0 tys' x.p ps ∧ x' = ⟨ps, x.q, x.r⟩)
    (h : Unused R rows' ⟨pats ++ pl, q, r⟩ res) : Unused R rows ⟨node isTuple con p pats :: pl, q, r⟩ res := by
  have hclosed : closeNode isTuple con p pats.length ⟨pats ++ pl, q, r⟩ = ⟨node isTuple con p pats :: pl, q, r⟩ := by
    simp [closeNode]
  rw [← hclosed]
  refine h.lift (closeNode isTuple con p pats.length) (CellsOpened R isTuple con pats.length) ?_ ?_ ?_ fun at' y
    before hr => hclosed ▸ restricts_closeNode hr
  · rintro _ _ ⟨cp, cq, cr, hopen, hlen⟩ ⟨x', hx', hm⟩
    obtain ⟨x, hx, ps, hs, rfl⟩ := hrows x' hx'
    exact ⟨x, hx, hs.back hopen (hlen.trans hl) hm.p, hm.q, hm.r⟩
  · rintro z ⟨cp, cq, cr⟩ hshape hm
    obtain ⟨c, cs0, cs', rfl, hopen, hlen, hrow⟩ := node_matches hm.p
    rw [List.take_append_drop] at hrow
    refine ⟨⟨cs0 ++ cs', cq, cr⟩, .mk cs' cq cr hopen ?_, hrow, hm.q, hm.r⟩
    have hp := hshape.p
    simp only [List.length_append] at hp
    rw [← hlen, List.length_take]
    omega
  · rintro z _ _ hshape ⟨cp, cq, cr, hopen, hlen⟩ hm
    refine ⟨matches_node hopen ?_ ?_, hm.q, hm.r⟩
    · have hp := hshape.p
      simp only [List.length_append] at hp
      rw [hlen, List.length_take]
      omega
    · rw [List.take_append_drop]
      exact hm.p

theorem restrictsRow_cons_iff {pat : PosPattern} {ps' : List PosPattern} {at' : Pos} {before : List (List PosPattern)}
    (h : RestrictsRow (pat :: pl) at' ps' before) :
    (∃ pat' bs, Restricts pat at' pat' bs ∧ ps' = pat' :: pl ∧ before = bs.map (· :: pl)) ∨
      ∃ pl' bs, RestrictsRow pl at' pl' bs ∧ ps' = pat :: pl' ∧ before = bs.map (pat :: ·) := by
  generalize hx : pat :: pl = x at h
  cases h with
  | mk pre post h =>
    cases pre with
    | nil =>
      obtain ⟨rfl, rfl⟩ := List.cons.inj hx
      exact .inl ⟨_, _, h, rfl, rfl⟩
    | cons _ pre =>
      obtain ⟨rfl, rfl⟩ := List.cons.inj hx
      exact .inr ⟨_, _, .mk pre post h, rfl, by rw [List.map_map]; rfl⟩

/-- A variable around the first pattern. -/
def wrapBind (v : Nat) (p : Pos) (z : MatrixRow) : MatrixRow :=
  match z.p with
  | pat :: pl => ⟨.patBind v pat p :: pl, z.q, z.r⟩
  | [] => z

theorem restricts_wrapBind {pat : PosPattern} (v : Nat) {y : MatrixRow} {at' : Pos} {before : List MatrixRow}
    (h : RestrictsMatrix ⟨pat :: pl, q, r⟩ at' y before) :
    RestrictsMatrix ⟨.patBind v pat p :: pl, q, r⟩ at' (wrapBind v p y) (before.map (wrapBind v p)) := by
  generalize hx : (⟨pat :: pl, q, r⟩ : MatrixRow) = x at h
  cases h with
  | inP q' r' h =>
    obtain ⟨rfl, rfl, rfl⟩ := MatrixRow.mk.inj hx
    obtain ⟨pat', bs, hpat, rfl, rfl⟩ | ⟨pl', bs, hpl, rfl, rfl⟩ := restrictsRow_cons_iff h
    · have hbind := RestrictsMatrix.inP q r (.mk [] pl (.bind v p hpat))
      simpa [wrapBind, Function.comp_def] using hbind
    · have hrow := RestrictsMatrix.inP q r (restrictsRow_cons (.patBind v pat p) hpl)
      simpa [wrapBind, Function.comp_def] using hrow
  | inR p' q' h =>
    obtain ⟨rfl, rfl, rfl⟩ := MatrixRow.mk.inj hx
    have hrow := RestrictsMatrix.inR (.patBind v pat p :: pl) q h
    simpa [wrapBind, Function.comp_def] using hrow

theorem wrapBind_matches {v : Nat} {z : MatrixRow} {cs : MatrixCells V} :
    (wrapBind v p z).Matches R cs ↔ z.Matches R cs := by
  obtain ⟨_ | ⟨pat, pl⟩, q, r⟩ := z
  · exact Iff.rfl
  · have hp : RowMatches R (.patBind v pat p :: pl) cs.p ↔ RowMatches R (pat :: pl) cs.p := by
      simp only [RowMatches, List.forall₂_cons_left_iff, PosPattern.erase, CellMatches]
    exact ⟨fun h => ⟨hp.1 h.p, h.q, h.r⟩, fun h => ⟨hp.2 h.p, h.q, h.r⟩⟩

theorem unused_bind {pat : PosPattern} {v : Nat} (h : Unused R rows ⟨pat :: pl, q, r⟩ res) :
    Unused R rows ⟨.patBind v pat p :: pl, q, r⟩ res := by
  refine h.lift (wrapBind v p) (· = ·) ?_ ?_ ?_ fun _ _ _ hr => restricts_wrapBind v hr
  · rintro cs _ rfl hc
    exact hc
  · rintro z cs - hm
    exact ⟨cs, rfl, wrapBind_matches.1 hm⟩
  · rintro z cs _ - rfl hm
    exact wrapBind_matches.2 hm

/-- The first column of `q`, given back. -/
def fromQ (z : MatrixRow) : MatrixRow :=
  match z.q with
  | pat :: q => ⟨pat :: z.p, q, z.r⟩
  | [] => z

/-- The first column of `r`, given back. -/
def fromR (z : MatrixRow) : MatrixRow :=
  match z.r with
  | pat :: r => ⟨pat :: z.p, z.q, r⟩
  | [] => z

inductive CellsToQ : MatrixCells V → MatrixCells V → Prop
  | mk (c : Cell V) (cp cq cr : List (Cell V)) : CellsToQ ⟨c :: cp, cq, cr⟩ ⟨cp, c :: cq, cr⟩

inductive CellsToR : MatrixCells V → MatrixCells V → Prop
  | mk (c : Cell V) (cp cq cr : List (Cell V)) : CellsToR ⟨c :: cp, cq, cr⟩ ⟨cp, cq, c :: cr⟩

theorem restricts_fromQ {pat : PosPattern} {y : MatrixRow} {at' : Pos} {before : List MatrixRow}
    (h : RestrictsMatrix ⟨pl, pat :: q, r⟩ at' y before) :
    RestrictsMatrix ⟨pat :: pl, q, r⟩ at' (fromQ y) (before.map fromQ) := by
  generalize hx : (⟨pl, pat :: q, r⟩ : MatrixRow) = x at h
  cases h with
  | inP q' r' h =>
    obtain ⟨rfl, rfl, rfl⟩ := MatrixRow.mk.inj hx
    have hrow := RestrictsMatrix.inP q r (restrictsRow_cons pat h)
    simpa [fromQ, Function.comp_def] using hrow
  | inR p' q' h =>
    obtain ⟨rfl, rfl, rfl⟩ := MatrixRow.mk.inj hx
    have hrow := RestrictsMatrix.inR (pat :: pl) q h
    simpa [fromQ, Function.comp_def] using hrow

theorem restricts_fromR {pat : PosPattern} {y : MatrixRow} {at' : Pos} {before : List MatrixRow}
    (h : RestrictsMatrix ⟨pl, q, pat :: r⟩ at' y before) :
    RestrictsMatrix ⟨pat :: pl, q, r⟩ at' (fromR y) (before.map fromR) := by
  generalize hx : (⟨pl, q, pat :: r⟩ : MatrixRow) = x at h
  cases h with
  | inP q' r' h =>
    obtain ⟨rfl, rfl, rfl⟩ := MatrixRow.mk.inj hx
    have hrow := RestrictsMatrix.inP q r (restrictsRow_cons pat h)
    simpa [fromR, Function.comp_def] using hrow
  | inR p' q' h =>
    obtain ⟨rfl, rfl, rfl⟩ := MatrixRow.mk.inj hx
    obtain ⟨pat', bs, hpat, rfl, rfl⟩ | ⟨r', bs, hr, rfl, rfl⟩ := restrictsRow_cons_iff h
    · have hrow := RestrictsMatrix.inP q r (.mk [] pl hpat)
      simpa [fromR, Function.comp_def] using hrow
    · have hrow := RestrictsMatrix.inR (pat :: pl) q hr
      simpa [fromR, Function.comp_def] using hrow

theorem unused_toQ {pat : PosPattern}
    (hrows : ∀ x' ∈ rows', ∃ pat', ∃ x ∈ rows, ∃ ps, x.p = pat' :: ps ∧ x' = ⟨ps, pat' :: x.q, x.r⟩)
    (h : Unused R rows' ⟨pl, pat :: q, r⟩ res) : Unused R rows ⟨pat :: pl, q, r⟩ res := by
  refine h.lift fromQ CellsToQ ?_ ?_ ?_ fun _ _ _ hr => restricts_fromQ hr
  · rintro _ _ ⟨c, cp, cq, cr⟩ ⟨x', hx', hm⟩
    obtain ⟨pat', x, hx, ps, hp, rfl⟩ := hrows x' hx'
    obtain ⟨hpat, hq⟩ := List.forall₂_cons.1 hm.q
    exact ⟨x, hx, hp ▸ .cons hpat hm.p, hq, hm.r⟩
  · rintro ⟨zp, zq, zr⟩ ⟨cp, cq, cr⟩ hshape hm
    obtain rfl : zq = pat :: q := hshape.q
    obtain ⟨c, cp', hpat, hp, rfl⟩ := List.forall₂_cons_left_iff.1 hm.p
    exact ⟨_, .mk c cp' cq cr, hp, .cons hpat hm.q, hm.r⟩
  · rintro ⟨zp, zq, zr⟩ _ _ hshape ⟨c, cp, cq, cr⟩ hm
    obtain rfl : zq = pat :: q := hshape.q
    obtain ⟨hpat, hq⟩ := List.forall₂_cons.1 hm.q
    exact ⟨.cons hpat hm.p, hq, hm.r⟩

theorem unused_toR {pat : PosPattern}
    (hrows : ∀ x' ∈ rows', ∃ pat', ∃ x ∈ rows, ∃ ps, x.p = pat' :: ps ∧ x' = ⟨ps, x.q, pat' :: x.r⟩)
    (h : Unused R rows' ⟨pl, q, pat :: r⟩ res) : Unused R rows ⟨pat :: pl, q, r⟩ res := by
  refine h.lift fromR CellsToR ?_ ?_ ?_ fun _ _ _ hr => restricts_fromR hr
  · rintro _ _ ⟨c, cp, cq, cr⟩ ⟨x', hx', hm⟩
    obtain ⟨pat', x, hx, ps, hp, rfl⟩ := hrows x' hx'
    obtain ⟨hpat, hr⟩ := List.forall₂_cons.1 hm.r
    exact ⟨x, hx, hp ▸ .cons hpat hm.p, hm.q, hr⟩
  · rintro ⟨zp, zq, zr⟩ ⟨cp, cq, cr⟩ hshape hm
    obtain ⟨pat', zr, rfl⟩ := List.exists_cons_of_length_eq_add_one hshape.r
    obtain ⟨c, cp', hpat, hp, rfl⟩ := List.forall₂_cons_left_iff.1 hm.p
    exact ⟨_, .mk c cp' cq cr, hp, hm.q, .cons hpat hm.r⟩
  · rintro ⟨zp, zq, zr⟩ _ _ hshape ⟨c, cp, cq, cr⟩ hm
    obtain ⟨pat', zr, rfl⟩ := List.exists_cons_of_length_eq_add_one hshape.r
    obtain ⟨hpat, hr⟩ := List.forall₂_cons.1 hm.r
    exact ⟨.cons hpat hm.p, hm.q, hr⟩

/-! ## Alternatives -/

variable {pre post : List PosPattern}

/-- The column behind `n` others of the third group is picked, the others go to the second group. -/
inductive CellsPicked (n m : Nat) : MatrixCells V → MatrixCells V → Prop
  | mk {cpre cpost : List (Cell V)} (c : Cell V) (cq : List (Cell V)) (hpre : cpre.length = n)
      (hpost : cpost.length = m) :
    CellsPicked n m ⟨[], cq, cpre ++ c :: cpost⟩ ⟨[c], cpre ++ cpost ++ cq, []⟩

/-- The same for a row. -/
inductive Picked (n m : Nat) : MatrixRow → MatrixRow → Prop
  | mk {pre post : List PosPattern} (pat : PosPattern) (q : List PosPattern) (hpre : pre.length = n)
      (hpost : post.length = m) :
    Picked n m ⟨[], q, pre ++ pat :: post⟩ ⟨[pat], pre ++ post ++ q, []⟩

theorem Picked.of_matches {n m : Nat} {x x' : MatrixRow} {cs : MatrixCells V} (h : Picked n m x x')
    (hm : x.Matches R cs) : ∃ cs', CellsPicked n m cs cs' ∧ x'.Matches R cs' := by
  obtain @⟨pre, post, pat, q, hpre, hpost⟩ := h
  obtain ⟨cp, cq, cr⟩ := cs
  obtain rfl : cp = [] := List.forall₂_nil_left_iff.1 hm.p
  obtain ⟨cpre, c, cpost, rfl, hpre', hpat, hpost'⟩ := forall₂_split hm.r
  exact ⟨_, .mk c cq (hpre'.length_eq.symm.trans hpre) (hpost'.length_eq.symm.trans hpost), .cons hpat .nil,
    List.rel_append (List.rel_append hpre' hpost') hm.q, .nil⟩

/-- The types of a picked row. -/
theorem Picked.fits {n m : Nat} {x x' : MatrixRow} {ty : CellTy Ty} {tq tpre tpost : List (CellTy Ty)}
    (h : Picked n m x x') (hl : tpre.length = n) (hx : x.Fits T ⟨[], tq, tpre ++ ty :: tpost⟩) :
    x'.Fits T ⟨[ty], tpre ++ tpost ++ tq, []⟩ := by
  obtain ⟨pat, q, hpre, hpost⟩ := h
  obtain ⟨lpre, b, lpost, heq, hpre', hpat, hpost'⟩ := forall₂_split hx.r
  obtain ⟨rfl, htail⟩ := List.append_inj heq (hl.trans (hpre.symm.trans hpre'.length_eq))
  obtain ⟨rfl, rfl⟩ := List.cons.inj htail
  exact ⟨.cons hpat .nil, List.rel_append (List.rel_append hpre' hpost') hx.q, .nil⟩

theorem Picked.matches {n m : Nat} {x x' : MatrixRow} {cs cs' : MatrixCells V} (h : Picked n m x x')
    (hc : CellsPicked n m cs cs') (hm : x'.Matches R cs') : x.Matches R cs := by
  obtain ⟨pat, q, hpre, hpost⟩ := h
  obtain ⟨c, cq, hcpre, hcpost⟩ := hc
  obtain ⟨hpat, -⟩ := List.forall₂_cons.1 hm.p
  obtain ⟨hl, hq⟩ := rowMatches_append (by rw [List.length_append, List.length_append]; omega) hm.q
  obtain ⟨hpre', hpost'⟩ := rowMatches_append (hpre.trans hcpre.symm) hl
  exact ⟨.nil, hq, List.rel_append hpre' (.cons hpat hpost')⟩

/-- What the answer `res` says of a column of the third group. -/
def UnusedAt (R : Runtime V) (rows : List MatrixRow) (q pre post : List PosPattern) (pat : PosPattern) :
    Useless → Prop
  | .false => ∀ cs : MatrixCells V, MatrixRow.Matches R ⟨[], q, pre ++ pat :: post⟩ cs → Covered R rows cs
  | .pos p => ∃ pat' before, Restricts pat p pat' before ∧
      ∀ cs : MatrixCells V, MatrixRow.Matches R ⟨[], q, pre ++ pat' :: post⟩ cs →
        Covered R rows cs ∨ ∃ b ∈ before, MatrixRow.Matches R ⟨[], q, pre ++ b :: post⟩ cs
  | .true => True

theorem unused_picked {pat : PosPattern} (hrows : ∀ x' ∈ rows', ∃ x ∈ rows, Picked pre.length post.length x x')
    (h : Unused R rows' ⟨[pat], pre ++ post ++ q, []⟩ res) : UnusedAt R rows q pre post pat res := by
  have hcovered : ∀ {cs cs' : MatrixCells V}, CellsPicked pre.length post.length cs cs' → Covered R rows' cs' →
      Covered R rows cs := by
    rintro cs cs' hc ⟨x', hx', hm⟩
    obtain ⟨x, hx, hp⟩ := hrows x' hx'
    exact ⟨x, hx, hp.matches hc hm⟩
  have hpicked (pat : PosPattern) : Picked pre.length post.length ⟨[], q, pre ++ pat :: post⟩
      ⟨[pat], pre ++ post ++ q, []⟩ := .mk pat q rfl rfl
  cases res with
  | false =>
    intro cs hm
    obtain ⟨cs', hc, hm'⟩ := (hpicked pat).of_matches hm
    exact hcovered hc (h cs' hm')
  | pos p =>
    obtain ⟨y, before, hr, hy⟩ := h
    generalize hx : (⟨[pat], pre ++ post ++ q, []⟩ : MatrixRow) = x at hr
    cases hr with
    | inP q' r' hr =>
      obtain ⟨rfl, rfl, rfl⟩ := MatrixRow.mk.inj hx
      obtain ⟨pat', bs, hpat, rfl, rfl⟩ | ⟨_, _, hnil, -, -⟩ := restrictsRow_cons_iff hr
      · refine ⟨pat', bs, hpat, fun cs hm => ?_⟩
        obtain ⟨cs', hc, hm'⟩ := (hpicked pat').of_matches hm
        refine (hy cs' hm').imp (hcovered hc) ?_
        rintro ⟨b, hb, hmb⟩
        simp only [List.map_map, List.mem_map, Function.comp] at hb
        obtain ⟨b, hb, rfl⟩ := hb
        exact ⟨b, hb, (hpicked b).matches hc hmb⟩
      · generalize hn : ([] : List PosPattern) = l at hnil
        cases hnil
        simp at hn
    | inR p' q' hr =>
      obtain ⟨rfl, rfl, rfl⟩ := MatrixRow.mk.inj hx
      generalize hn : ([] : List PosPattern) = l at hr
      cases hr
      simp at hn
  | true => trivial

theorem restricts_column {pat pat' : PosPattern} {before : List PosPattern} (q pre post : List PosPattern)
    (h : Restricts pat p pat' before) : RestrictsMatrix ⟨[], q, pre ++ pat :: post⟩ p ⟨[], q, pre ++ pat' :: post⟩
      (before.map fun b => ⟨[], q, pre ++ b :: post⟩) := by
  have hr := RestrictsMatrix.inR [] q (.mk pre post h)
  rwa [List.map_map] at hr

/-- The answers on both sides of an or-pattern, the second one with the first side among the rows. -/
theorem unused_or {pat1 pat2 : PosPattern} {et1 et2 : Useless} (h1 : UnusedAt R rows q pre post pat1 et1)
    (h2 : UnusedAt R (rows ++ [⟨[], q, pre ++ pat1 :: post⟩]) q pre post pat2 et2) :
    Unused R rows ⟨[], q, pre ++ .patOr pat1 pat2 p :: post⟩
      (combine (.true, punion pat1.pos pat2.pos)
        (combine (et1, pat1.pos) (et2, pat2.pos), punion pat1.pos pat2.pos)) := by
  have hcovered : ∀ {cs : MatrixCells V}, Covered R (rows ++ [⟨[], q, pre ++ pat1 :: post⟩]) cs →
      Covered R rows cs ∨ MatrixRow.Matches R ⟨[], q, pre ++ pat1 :: post⟩ cs := by
    rintro cs ⟨x, hx, hm⟩
    rcases List.mem_append.1 hx with hx | hx
    · exact .inl ⟨x, hx, hm⟩
    · exact .inr (List.mem_singleton.1 hx ▸ hm)
  have hleft : (∀ cs : MatrixCells V, MatrixRow.Matches R ⟨[], q, pre ++ pat1 :: post⟩ cs → Covered R rows cs) →
      Unused R rows ⟨[], q, pre ++ .patOr pat1 pat2 p :: post⟩ (.pos pat1.pos) := fun h =>
    ⟨_, _, restricts_column q pre post (.orLeft pat1 pat2 p), fun cs hm => .inl (h cs hm)⟩
  cases et1 with
  | false =>
    cases et2 with
    | false =>
      refine ⟨_, _, restricts_column q pre post (.orBoth pat1 pat2 p), fun cs hm => .inl ?_⟩
      obtain ⟨cs', hc, hm'⟩ := (Picked.mk _ q rfl rfl).of_matches hm
      obtain ⟨c, _, hor, hnil, heq⟩ := List.forall₂_cons_left_iff.1 hm'.p
      have hside {pat : PosPattern} (hpat : CellMatches R pat.erase c) :
          MatrixRow.Matches R ⟨[], q, pre ++ pat :: post⟩ cs :=
        (Picked.mk pat q rfl rfl).matches hc ⟨heq ▸ .cons hpat hnil, hm'.q, hm'.r⟩
      rcases hor with h | h
      · exact h1 cs (hside h)
      · exact (hcovered (h2 cs (hside h))).elim id (h1 cs)
    | pos p2 => exact hleft h1
    | true => exact hleft h1
  | pos p1 =>
    obtain ⟨pat', before, hr, h⟩ := h1
    have hleft : Unused R rows ⟨[], q, pre ++ .patOr pat1 pat2 p :: post⟩ (.pos p1) := by
      refine ⟨_, _, restricts_column q pre post (.inLeft pat2 p hr), fun cs hm => (h cs hm).imp id ?_⟩
      rintro ⟨b, hb, hmb⟩
      exact ⟨_, List.mem_map_of_mem hb, hmb⟩
    cases et2 <;> exact hleft
  | true =>
    cases et2 with
    | false =>
      refine ⟨_, _, restricts_column q pre post (.orRight pat1 pat2 p), fun cs hm => (hcovered (h2 cs hm)).imp id ?_⟩
      exact fun hm' => ⟨_, List.mem_map_of_mem (List.mem_singleton_self pat1), hm'⟩
    | pos p2 =>
      obtain ⟨pat', before, hr, h⟩ := h2
      refine ⟨_, _, restricts_column q pre post (.inRight pat1 p hr), fun cs hm => ?_⟩
      rcases h cs hm with hc | ⟨b, hb, hmb⟩
      · exact (hcovered hc).imp id fun hm' => ⟨_, List.mem_map_of_mem (List.mem_cons_self ..), hm'⟩
      · exact .inr ⟨_, List.mem_map_of_mem (List.mem_cons_of_mem _ hb), hmb⟩
    | true => trivial

end

end EvilHaxe.Matcher.Usefulness
