/-
The check for useless patterns: `useless.ml`. A case is compared with the unguarded cases before it. The
patterns carry their positions here, because a warning only has the position of what is unused.
-/
import EvilHaxe.Matcher.Semantics
import EvilHaxe.Syntax.Ast
import EvilHaxe.Matcher.Matches
import EvilHaxe.Matcher.Operations

namespace EvilHaxe.Matcher

open Syntax (Pos punion nullPos)

/-! ## Patterns with positions -/

/-- `Pattern.pattern`. -/
inductive PosPattern where
  | patConstructor (con : Con) (patterns : List PosPattern) (p : Pos)
  | patAny (p : Pos)
  | patBind (v : Nat) (pat : PosPattern) (p : Pos)
  | patOr (pat1 pat2 : PosPattern) (p : Pos)
  | patTuple (patterns : List PosPattern) (p : Pos)
  | patExtractor (ex : Nat) (pat : PosPattern) (p : Pos)

def PosPattern.pos : PosPattern → Pos
  | .patConstructor _ _ p | .patAny p | .patBind _ _ p | .patOr _ _ p | .patTuple _ p | .patExtractor _ _ p => p

mutual

/-- The pattern without its positions. -/
def PosPattern.erase : PosPattern → Pattern
  | .patConstructor con patterns _ => .patConstructor con (eraseAll patterns)
  | .patAny _ => .patAny
  | .patBind v pat _ => .patBind v pat.erase
  | .patOr pat1 pat2 _ => .patOr pat1.erase pat2.erase
  | .patTuple patterns _ => .patTuple (eraseAll patterns)
  | .patExtractor ex pat _ => .patExtractor ex pat.erase

def eraseAll : List PosPattern → List Pattern
  | [] => []
  | pat :: pats => pat.erase :: eraseAll pats

end

/-- What is left of a case: its guard, its position and its patterns. -/
structure PosCase where
  caseGuard : Option Nat
  casePos : Pos
  patterns : List PosPattern

/-- `useless`. -/
inductive Useless where
  | false
  | pos (p : Pos)
  | true
  deriving DecidableEq

/-- "This case is unused" and "This pattern is unused". -/
inductive Warning where
  | unusedCase (p : Pos)
  | unusedPattern (p : Pos)
  deriving DecidableEq

namespace Usefulness

/-! ## Useful rows -/

/-- The local `loop` of `specialize`, by the first pattern of the row. -/
def specializePattern (isTuple : Bool) (con : Con) : PosPattern → List PosPattern → Option (List PosPattern)
  | .patConstructor con' patterns1 _, patterns2 =>
    if !isTuple && con.equal con' then some (patterns1 ++ patterns2) else none
  | .patTuple patterns1 _, patterns2 => if isTuple then some (patterns1 ++ patterns2) else none
  | .patAny p, patterns2 => some (List.replicate con.arity (.patAny p) ++ patterns2)
  | .patBind _ pat1 _, patterns2 => specializePattern isTuple con pat1 patterns2
  | _, _ => none

def specializeRow (isTuple : Bool) (con : Con) : List PosPattern → Option (List PosPattern)
  | pat :: patterns => specializePattern isTuple con pat patterns
  | [] => none

/-- `specialize`. -/
def specialize (isTuple : Bool) (con : Con) (pM : List (List PosPattern)) : List (List PosPattern) :=
  pM.filterMap (specializeRow isTuple con)

def defaultRow : List PosPattern → Option (List PosPattern)
  | .patBind _ (.patAny _) _ :: patterns | .patAny _ :: patterns => some patterns
  | _ => none

/-- `default`. -/
def default (pM : List (List PosPattern)) : List (List PosPattern) := pM.filterMap defaultRow

/-- `u`: does the row match anything that the matrix does not? The fuel bounds the depth of the calls. -/
def u : Nat → List (List PosPattern) → List PosPattern → Option Bool
  | 0, _, _ => none
  | fuel + 1, pM, q =>
    match q with
    | [] => some pM.isEmpty
    | q1 :: ql =>
      match q1 with
      | .patConstructor con patterns _ => u fuel (specialize false con pM) (patterns ++ ql)
      | .patTuple patterns _ => u fuel (specialize true (.conConst .tNull) pM) (patterns ++ ql)
      | .patAny _ => u fuel (default pM) ql
      | .patOr pat1 pat2 _ => do
        if ← u fuel pM (pat1 :: ql) then pure true else u fuel pM (pat2 :: ql)
      | .patBind _ pat1 _ => u fuel pM (pat1 :: ql)
      | .patExtractor _ _ _ => some true

/-! ## Useful alternatives -/

/-- `transfer_column`. `List.fold_left2` raises on lists of different lengths. -/
def transferColumn : List (List PosPattern) → List (List PosPattern) →
    Option (List (List PosPattern) × List (List PosPattern))
  | patterns1 :: source, patterns2 :: target => do
    let (source, target) ← transferColumn source target
    match patterns1 with
    | pat :: patterns => pure (patterns :: source, (pat :: patterns2) :: target)
    | [] => pure (source, target)
  | [], [] => some ([], [])
  | _, _ => none

/-- `copy`. -/
def copy (p : List (List PosPattern)) : List (List PosPattern) := p.map fun _ => []

/-- The local `loop2` of `specialize'`: an or-pattern stands for two rows. -/
def specializePattern' (isTuple : Bool) (con : Con) : PosPattern → List PosPattern → List (List PosPattern)
  | .patConstructor con' patterns1 _, patterns2 =>
    if !isTuple && con.equal con' then [patterns1 ++ patterns2] else []
  | .patTuple patterns1 _, patterns2 => if isTuple then [patterns1 ++ patterns2] else []
  | .patAny p, patterns2 => [List.replicate con.arity (.patAny p) ++ patterns2]
  | .patOr pat1 pat2 _, patterns2 =>
    specializePattern' isTuple con pat1 patterns2 ++ specializePattern' isTuple con pat2 patterns2
  | .patBind _ pat1 _, patterns2 => specializePattern' isTuple con pat1 patterns2
  | .patExtractor _ _ _, _ => []

def specializeRow' (isTuple : Bool) (con : Con) : List PosPattern → List (List PosPattern)
  | pat :: patterns => specializePattern' isTuple con pat patterns
  | [] => []

/-- `specialize'`, on three matrices with the same number of rows. -/
def specialize' (isTuple : Bool) (con : Con) : List (List PosPattern) → List (List PosPattern) →
    List (List PosPattern) → Option (List (List PosPattern) × List (List PosPattern) × List (List PosPattern))
  | p1 :: pM, q1 :: qM, r1 :: rM => do
    let (pM, qM, rM) ← specialize' isTuple con pM qM rM
    let ps := specializeRow' isTuple con p1
    pure (ps ++ pM, List.replicate ps.length q1 ++ qM, List.replicate ps.length r1 ++ rM)
  | [], _, _ => some ([], [], [])
  | _, _, _ => none

/-- `combine`. -/
def combine : Useless × Pos → Useless × Pos → Useless
  | (.true, _), (.true, _) => .true
  | (.false, _), (.false, _) => .false
  | (.true, _), (.false, p2) => .pos p2
  | (.false, p1), (.true, _) => .pos p1
  | (.true, _), (.pos p, _) => .pos p
  | (.pos p, _), (.true, _) => .pos p
  | (.false, p1), (.pos _, _) => .pos p1
  | (.pos p, _), _ => .pos p

/-- The local `process_row`: the pattern with the number `i`, and the others in front of `q`. -/
def processRow : Nat → List PosPattern → List PosPattern → Option (PosPattern × List PosPattern)
  | _, [], _ => none
  | 0, x :: l, q => some (x, l ++ q)
  | i + 1, x :: l, q => do
    let (y, l) ← processRow i l q
    pure (y, x :: l)

/-- The `fold_left2` of `u'`: the column `i` of `rM`, and the rest of `rM` in front of `qM`. -/
def processRows (i : Nat) : List (List PosPattern) → List (List PosPattern) →
    Option (List (List PosPattern) × List (List PosPattern))
  | r :: rM, q :: qM => do
    let (x, l) ← processRow i r q
    let (col, mat) ← processRows i rM qM
    pure ([x] :: col, l :: mat)
  | [], [] => some ([], [])
  | _, _ => none

/-- The step of the fold of `u'` over `r`, given `u'` for smaller patterns. -/
def alternative (u' : List (List PosPattern) → List (List PosPattern) → List (List PosPattern) →
      List PosPattern → List PosPattern → List PosPattern → Option Useless)
    (qM rM : List (List PosPattern)) (q r : List PosPattern) : Nat × Useless → PosPattern → Option (Nat × Useless)
  | (i, et), .patOr pat1 pat2 _ => do
    let (col, mat) ← processRows i rM qM
    let (_, r) ← processRow i r q
    let et1 ← u' col mat (copy mat) [pat1] r []
    let qM := mat ++ [r]
    let et2 ← u' (col ++ [[pat1]]) qM (copy qM) [pat2] r []
    let et3 := combine (et1, pat1.pos) (et2, pat2.pos)
    let p := punion pat1.pos pat2.pos
    pure (i + 1, combine (et, p) (et3, p))
  | _, _ => none

/-- `u'`. The columns of `p` are looked at one after the other; wildcards go to `q` and or-patterns to `r`. -/
def u' : Nat → List (List PosPattern) → List (List PosPattern) → List (List PosPattern) →
    List PosPattern → List PosPattern → List PosPattern → Option Useless
  | 0, _, _, _, _, _, _ => none
  | fuel + 1, pM, qM, rM, p, q, r =>
    match p with
    | [] =>
      match r with
      | [] => do if ← u (fuel + 1) qM q then pure .true else pure .false
      | _ => do
        let (_, et) ← r.foldlM (alternative (u' fuel) qM rM q r) (0, .true)
        pure et
    | pat :: pl =>
      match pat with
      | .patConstructor con patterns _ => do
        let (pM, qM, rM) ← specialize' false con pM qM rM
        u' fuel pM qM rM (patterns ++ pl) q r
      | .patTuple patterns _ => do
        let (pM, qM, rM) ← specialize' true (.conConst .tNull) pM qM rM
        u' fuel pM qM rM (patterns ++ pl) q r
      | .patAny _ => do
        let (pM, qM) ← transferColumn pM qM
        u' fuel pM qM rM pl (pat :: q) r
      | .patOr _ _ _ => do
        let (pM, rM) ← transferColumn pM rM
        u' fuel pM qM rM pl q (pat :: r)
      | .patBind _ pat1 _ => u' fuel pM qM rM (pat1 :: pl) q r
      | .patExtractor _ _ _ => some .true

/-! ## The check -/

mutual

/-- The size of a pattern: an or-pattern counts its sides twice, as they are looked at again. -/
def size : PosPattern → Nat
  | .patAny _ => 1
  | .patBind _ pat _ => size pat + 1
  | .patOr pat1 pat2 _ => 2 * (size pat1 + size pat2) + 1
  | .patConstructor _ patterns _ => sizeAll patterns + 1
  | .patTuple patterns _ => sizeAll patterns + 1
  | .patExtractor _ _ _ => 1

def sizeAll : List PosPattern → Nat
  | [] => 0
  | pat :: pats => size pat + sizeAll pats

end

/-- `check_case`, where `p` are the unguarded cases before the case. -/
def checkCase (p : List PosCase) (c : PosCase) : Option (Option Warning) := do
  let p := p.map fun c => c.patterns
  match ← u' (2 * sizeAll c.patterns + 1) p (copy p) (copy p) c.patterns [] [] with
  | .false => pure (some (.unusedCase c.casePos))
  | .pos p => pure (some (.unusedPattern p))
  | .true => pure none

/-- The fold of `check`: what is reported for each case. -/
def checkFrom (acc : List PosCase) : List PosCase → Option (List (Option Warning))
  | [] => some []
  | c :: cases => do
    let w ← checkCase acc c
    let ws ← checkFrom (if c.caseGuard = none then acc ++ [c] else acc) cases
    pure (w :: ws)

/-- `check`. -/
def check (cases : List PosCase) : Option (List (Option Warning)) := checkFrom [] cases

end Usefulness

/-! ## What the columns of a matrix match -/

/-- What a column is compared with: a value, or the values of all subjects. -/
inductive Cell (V : Type) where
  | one (v : V)
  | tuple (vs : List V)

variable {V : Type} (R : Runtime V)

/-- The pattern has a match. -/
def CellMatches : Pattern → Cell V → Prop
  | .patAny, _ => True
  | .patBind _ pat, c => CellMatches pat c
  | .patOr pat1 pat2, c => CellMatches pat1 c ∨ CellMatches pat2 c
  | .patTuple pats, .tuple vs => ∃ β, β ∈ matchAll R pats vs
  | .patConstructor con pats, .one v => ∃ β, β ∈ patMatches R (.patConstructor con pats) v
  | .patExtractor ex pat, .one v => ∃ β, β ∈ patMatches R (.patExtractor ex pat) v
  | _, _ => False

def RowMatches (pats : List PosPattern) (cs : List (Cell V)) : Prop :=
  List.Forall₂ (fun pat c => CellMatches R pat.erase c) pats cs

/-- The types of columns. -/
inductive CellTy (Ty : Type) where
  | one (t : Ty)
  | tuple (ts : List Ty)

variable {R} {Ty : Type} (T : PatternTyping R Ty)

/-- The pattern may be matched against the type. A tuple has a pattern for each of its parts. -/
def FitsCell : Pattern → CellTy Ty → Prop
  | .patBind _ pat, t => FitsCell pat t
  | .patOr pat1 pat2, t => FitsCell pat1 t ∧ FitsCell pat2 t
  | .patTuple pats, .tuple ts => FitsAll T pats ts
  | pat, .one t => Fits T pat t
  | _, .tuple _ => False

def FitsRow (pats : List PosPattern) (tys : List (CellTy Ty)) : Prop :=
  List.Forall₂ (fun pat ty => FitsCell T pat.erase ty) pats tys

/-! ## Alternatives of a pattern -/

/-- `Restricts pat p pat' before`: `pat` has an or-pattern, or an alternative of one, at the position `p`. With the
other alternatives left out it is `pat'`; `before` are the same with an alternative that stands before it. -/
inductive Restricts : PosPattern → Pos → PosPattern → List PosPattern → Prop
  | orLeft (pat1 pat2 : PosPattern) (q : Pos) : Restricts (.patOr pat1 pat2 q) pat1.pos pat1 []
  | orRight (pat1 pat2 : PosPattern) (q : Pos) : Restricts (.patOr pat1 pat2 q) pat2.pos pat2 [pat1]
  | orBoth (pat1 pat2 : PosPattern) (q : Pos) :
    Restricts (.patOr pat1 pat2 q) (punion pat1.pos pat2.pos) (.patOr pat1 pat2 q) []
  | inLeft {pat1 pat' : PosPattern} {p : Pos} {before : List PosPattern} (pat2 : PosPattern) (q : Pos) :
    Restricts pat1 p pat' before → Restricts (.patOr pat1 pat2 q) p pat' before
  | inRight {pat2 pat' : PosPattern} {p : Pos} {before : List PosPattern} (pat1 : PosPattern) (q : Pos) :
    Restricts pat2 p pat' before → Restricts (.patOr pat1 pat2 q) p pat' (pat1 :: before)
  | bind {pat pat' : PosPattern} {p : Pos} {before : List PosPattern} (v : Nat) (q : Pos) :
    Restricts pat p pat' before →
      Restricts (.patBind v pat q) p (.patBind v pat' q) (before.map fun b => .patBind v b q)
  | constructor {pat pat' : PosPattern} {p : Pos} {before : List PosPattern} (con : Con)
      (pre post : List PosPattern) (q : Pos) :
    Restricts pat p pat' before →
      Restricts (.patConstructor con (pre ++ pat :: post) q) p (.patConstructor con (pre ++ pat' :: post) q)
        (before.map fun b => .patConstructor con (pre ++ b :: post) q)
  | tuple {pat pat' : PosPattern} {p : Pos} {before : List PosPattern} (pre post : List PosPattern) (q : Pos) :
    Restricts pat p pat' before →
      Restricts (.patTuple (pre ++ pat :: post) q) p (.patTuple (pre ++ pat' :: post) q)
        (before.map fun b => .patTuple (pre ++ b :: post) q)

/-- The same for a list of patterns. -/
inductive RestrictsRow : List PosPattern → Pos → List PosPattern → List (List PosPattern) → Prop
  | mk {pat pat' : PosPattern} {p : Pos} {before : List PosPattern} (pre post : List PosPattern) :
    Restricts pat p pat' before →
      RestrictsRow (pre ++ pat :: post) p (pre ++ pat' :: post) (before.map fun b => pre ++ b :: post)

end EvilHaxe.Matcher

/-! The columns of a pattern matrix: what a pattern of a column matches, the columns that take the place of one that is
opened, and what the rows of a specialised or a default matrix match. -/

namespace EvilHaxe.Matcher.Usefulness

open Syntax (Pos)

variable {V : Type} {R : Runtime V} {Ty : Type} {T : PatternTyping R Ty}

/-! ## Cells -/

theorem eraseAll_eq : ∀ pats : List PosPattern, eraseAll pats = pats.map PosPattern.erase
  | [] => rfl
  | _ :: pats => congrArg _ (eraseAll_eq pats)

theorem cellMatches_one : ∀ {pat : Pattern} {v : V}, CellMatches R pat (.one v) ↔ ∃ β, β ∈ patMatches R pat v
  | .patAny, v => by simp [CellMatches, patMatches]
  | .patBind x pat, v => by
    simp only [CellMatches, patMatches, List.mem_map, cellMatches_one]
    constructor
    · rintro ⟨β, hβ⟩
      exact ⟨_, β, hβ, rfl⟩
    · rintro ⟨_, β, hβ, -⟩
      exact ⟨β, hβ⟩
  | .patOr pat1 pat2, v => by
    simp only [CellMatches, patMatches, List.mem_append, cellMatches_one, exists_or]
  | .patTuple _, v => by simp [CellMatches, patMatches]
  | .patConstructor _ _, v => Iff.rfl
  | .patExtractor _ _, v => Iff.rfl

theorem matchAll_iff : ∀ {pats : List Pattern} {vs : List V},
    (∃ β, β ∈ matchAll R pats vs) ↔ List.Forall₂ (CellMatches R) pats (vs.map .one)
  | [], [] => by simp [matchAll]
  | [], _ :: _ => by simp [matchAll]
  | _ :: _, [] => by simp [matchAll]
  | pat :: pats, v :: vs => by
    rw [List.map_cons, List.forall₂_cons, ← matchAll_iff, cellMatches_one]
    constructor
    · rintro ⟨β, hβ⟩
      obtain ⟨β1, h1, β2, h2, -⟩ := (mem_matchAll_cons R).1 hβ
      exact ⟨⟨β1, h1⟩, β2, h2⟩
    · rintro ⟨⟨β1, h1⟩, β2, h2⟩
      exact ⟨_, (mem_matchAll_cons R).2 ⟨β1, h1, β2, h2, rfl⟩⟩

theorem rowMatches_erase {pats : List PosPattern} {cs : List (Cell V)} :
    List.Forall₂ (CellMatches R) (eraseAll pats) cs ↔ RowMatches R pats cs := by
  rw [eraseAll_eq, List.forall₂_map_left_iff]
  exact Iff.rfl

theorem cellMatches_constructor {con : Con} {pats : List PosPattern} {p : Pos} {c : Cell V} :
    CellMatches R (PosPattern.patConstructor con pats p).erase c ↔
      ∃ v, c = .one v ∧ R.holds con v = true ∧ RowMatches R pats ((R.parts v con).map .one) := by
  cases c with
  | one v =>
    rw [PosPattern.erase, cellMatches_one, patMatches]
    cases hold : R.holds con v with
    | true => simp [hold, ← rowMatches_erase, matchAll_iff]
    | false => simp [hold]
  | tuple vs => simp [PosPattern.erase, CellMatches]

theorem cellMatches_tuple {pats : List PosPattern} {p : Pos} {c : Cell V} :
    CellMatches R (PosPattern.patTuple pats p).erase c ↔
      ∃ vs, c = .tuple vs ∧ RowMatches R pats (vs.map .one) := by
  cases c with
  | one v => simp [PosPattern.erase, CellMatches]
  | tuple vs => simp [PosPattern.erase, CellMatches, ← rowMatches_erase, matchAll_iff]

theorem fitsCell_one : ∀ {pat : Pattern} {t : Ty}, FitsCell T pat (.one t) ↔ Fits T pat t
  | .patBind _ pat, t => by simp only [FitsCell, Fits, fitsCell_one]
  | .patOr _ _, t => by simp only [FitsCell, Fits, fitsCell_one]
  | .patAny, _ | .patTuple _, _ | .patConstructor _ _, _ | .patExtractor _ _, _ => by simp [FitsCell]

theorem fitsAll_iff : ∀ {pats : List PosPattern} {ts : List Ty},
    FitsAll T (eraseAll pats) ts ↔ FitsRow T pats (ts.map .one)
  | [], [] => by simp [eraseAll, FitsAll, FitsRow]
  | [], _ :: _ => by simp [eraseAll, FitsAll, FitsRow]
  | _ :: _, [] => by simp [eraseAll, FitsAll, FitsRow]
  | pat :: pats, t :: ts => by
    rw [eraseAll, FitsAll, fitsAll_iff, List.map_cons, FitsRow, FitsRow, List.forall₂_cons, fitsCell_one]

/-! ## Opening the first column -/

/-- What a column becomes when it is specialised to a constructor, or as the tuple of all subjects. -/
inductive Opens (T : PatternTyping R Ty) : Bool → Con → CellTy Ty → List (CellTy Ty) → Prop
  | constructor {t : Ty} {con : Con} (h : T.con t con) (hne : con ≠ .conConst .tNull) :
    Opens T false con (.one t) ((T.sub t con).map .one)
  | null (t : Ty) : Opens T false (.conConst .tNull) (.one t) []
  | tuple (ts : List Ty) : Opens T true (.conConst .tNull) (.tuple ts) (ts.map .one)

/-- The same for what the column is compared with. -/
inductive CellOpens (R : Runtime V) : Bool → Con → Cell V → List (Cell V) → Prop
  | constructor {v : V} {con : Con} (h : R.holds con v = true) :
    CellOpens R false con (.one v) ((R.parts v con).map .one)
  | tuple (vs : List V) (con : Con) : CellOpens R true con (.tuple vs) (vs.map .one)

/-- The patterns that open a column. -/
def node (isTuple : Bool) (con : Con) (p : Pos) (pats : List PosPattern) : PosPattern :=
  if isTuple then .patTuple pats p else .patConstructor con pats p

variable {isTuple : Bool} {con : Con} {p : Pos} {pats rest : List PosPattern}

theorem node_matches {cs : List (Cell V)} (h : RowMatches R (node isTuple con p pats :: rest) cs) :
    ∃ c cs0 cs', cs = c :: cs' ∧ CellOpens R isTuple con c cs0 ∧ pats.length = cs0.length ∧
      RowMatches R (pats ++ rest) (cs0 ++ cs') := by
  obtain ⟨c, cs', hc, hrest, rfl⟩ := List.forall₂_cons_left_iff.1 h
  cases isTuple with
  | true =>
    obtain ⟨vs, rfl, hpats⟩ := cellMatches_tuple.1 hc
    exact ⟨_, _, _, rfl, .tuple vs con, hpats.length_eq, List.rel_append hpats hrest⟩
  | false =>
    obtain ⟨v, rfl, hold, hpats⟩ := cellMatches_constructor.1 hc
    exact ⟨_, _, _, rfl, .constructor hold, hpats.length_eq, List.rel_append hpats hrest⟩

theorem forall₂_split {α β : Type} {S : α → β → Prop} {a : α} {post : List α} : ∀ {pre : List α} {l : List β},
    List.Forall₂ S (pre ++ a :: post) l →
      ∃ lpre b lpost, l = lpre ++ b :: lpost ∧ List.Forall₂ S pre lpre ∧ S a b ∧ List.Forall₂ S post lpost
  | [], _, .cons h hpost => ⟨[], _, _, rfl, .nil, h, hpost⟩
  | _ :: pre, _, .cons h hrest => by
    obtain ⟨lpre, b, lpost, rfl, hpre, hb, hpost⟩ := forall₂_split hrest
    exact ⟨_ :: lpre, b, lpost, rfl, .cons h hpre, hb, hpost⟩

theorem rowMatches_append {as bs : List PosPattern} {cs ds : List (Cell V)} (hl : as.length = cs.length)
    (h : RowMatches R (as ++ bs) (cs ++ ds)) : RowMatches R as cs ∧ RowMatches R bs ds := by
  have htake := List.forall₂_take as.length h
  have hdrop := List.forall₂_drop as.length h
  rw [List.take_left, hl, List.take_left] at htake
  rw [List.drop_left, hl, List.drop_left] at hdrop
  exact ⟨htake, hdrop⟩

theorem matches_node {c : Cell V} {cs0 cs' : List (Cell V)} (ho : CellOpens R isTuple con c cs0)
    (hl : pats.length = cs0.length) (h : RowMatches R (pats ++ rest) (cs0 ++ cs')) :
    RowMatches R (node isTuple con p pats :: rest) (c :: cs') := by
  obtain ⟨hpats, hrest⟩ := rowMatches_append hl h
  refine .cons ?_ hrest
  cases ho with
  | constructor hold => exact cellMatches_constructor.2 ⟨_, rfl, hold, hpats⟩
  | tuple vs => exact cellMatches_tuple.2 ⟨vs, rfl, hpats⟩

/-- A pattern that opens a column has a pattern for each of the new columns. -/
theorem node_fits {tys : List (CellTy Ty)} (hcon : isTuple = true → con = .conConst .tNull)
    (h : FitsRow T (node isTuple con p pats :: rest) tys) :
    ∃ ty tys0 tys', tys = ty :: tys' ∧ Opens T isTuple con ty tys0 ∧ FitsRow T pats tys0 ∧ FitsRow T rest tys' := by
  obtain ⟨ty, tys', hc, hrest, rfl⟩ := List.forall₂_cons_left_iff.1 h
  cases isTuple with
  | true =>
    obtain rfl := hcon rfl
    cases ty with
    | one t => simp [node, PosPattern.erase, FitsCell, Fits] at hc
    | tuple ts =>
      simp only [node, if_true, PosPattern.erase, FitsCell, fitsAll_iff] at hc
      exact ⟨_, _, _, rfl, .tuple ts, hc, hrest⟩
  | false =>
    cases ty with
    | tuple ts => simp [node, PosPattern.erase, FitsCell] at hc
    | one t =>
      simp only [node, Bool.false_eq_true, if_false, PosPattern.erase, fitsCell_one, Fits, fitsAll_iff] at hc
      obtain ⟨rfl, hpats, -⟩ | ⟨hcon, hne, hpats⟩ := hc
      · obtain rfl : pats = [] := by simpa [eraseAll_eq] using hpats
        exact ⟨_, _, _, rfl, .null t, .nil, hrest⟩
      · exact ⟨_, _, _, rfl, .constructor hcon hne, hpats, hrest⟩

theorem Opens.unique {con' : Con} {ty : CellTy Ty} {tys tys' : List (CellTy Ty)} (h : Opens T false con ty tys)
    (h' : Opens T false con' ty tys') (he : con.equal con' = true) : con = con' ∧ tys = tys' := by
  cases h with
  | constructor hcon hne =>
    cases h' with
    | constructor hcon' _ =>
      obtain rfl := T.equal_eq hcon hcon' he
      exact ⟨rfl, rfl⟩
    | null => exact absurd he (by rw [equal_null hne]; exact nofun)
  | null =>
    cases h' with
    | constructor _ hne =>
      cases con' with
      | conConst ct => exact absurd (congrArg _ (of_decide_eq_true he).symm) hne
      | _ => simp [Con.equal] at he
    | null => exact ⟨rfl, rfl⟩

theorem Opens.length {ty : CellTy Ty} {tys : List (CellTy Ty)} (h : Opens T false con ty tys) :
    tys.length = con.arity := by
  cases h with
  | constructor hcon _ => rw [List.length_map, T.sub_length hcon]
  | null => rfl

/-! ## Specialised matrices -/

section

variable {ty : CellTy Ty} {tys0 tys' : List (CellTy Ty)}

/-- A row of a specialised matrix fits the new columns, and what it matches was matched before. -/
structure Specialized (R : Runtime V) (T : PatternTyping R Ty) (isTuple : Bool) (con : Con)
    (tys0 tys' : List (CellTy Ty)) (row row' : List PosPattern) : Prop where
  fits : FitsRow T row' (tys0 ++ tys')
  back : ∀ {c : Cell V} {cs0 cs'}, CellOpens R isTuple con c cs0 → cs0.length = tys0.length →
    RowMatches R row' (cs0 ++ cs') → RowMatches R row (c :: cs')

theorem specialized_node {con' : Con} (hcon : isTuple = true → con' = .conConst .tNull)
    (he : isTuple = false → con.equal con' = true) (ho : Opens T isTuple con ty tys0)
    (hc : FitsCell T (node isTuple con' p pats).erase ty) (hrest : FitsRow T rest tys') :
    Specialized R T isTuple con tys0 tys' (node isTuple con' p pats :: rest) (pats ++ rest) := by
  obtain ⟨_, tys1, _, heq, ho', hpats, hrest⟩ := node_fits hcon (.cons hc hrest)
  obtain ⟨rfl, rfl⟩ := List.cons.inj heq
  obtain ⟨rfl, rfl⟩ : con = con' ∧ tys0 = tys1 := by
    cases isTuple with
    | true =>
      cases ho
      cases ho'
      exact ⟨rfl, rfl⟩
    | false => exact ho.unique ho' (he rfl)
  exact ⟨List.rel_append hpats hrest, fun hopen hl h => matches_node hopen (hpats.length_eq.trans hl.symm) h⟩

/-- A wildcard stands for wildcards in the new columns. -/
theorem specialized_any (ho : Opens T isTuple con ty tys0) (hc : FitsCell T .patAny ty) (hrest : FitsRow T rest tys') :
    Specialized R T isTuple con tys0 tys' (.patAny p :: rest) (List.replicate con.arity (.patAny p) ++ rest) := by
  cases isTuple with
  | true =>
    cases ho
    simp [FitsCell] at hc
  | false =>
    have hl := ho.length
    refine ⟨List.rel_append ?_ hrest, fun hopen hlen h => ?_⟩
    · refine List.forall₂_iff_get.2 ⟨by rw [List.length_replicate, hl], fun i h1 h2 => ?_⟩
      cases ho with
      | constructor => simp [PosPattern.erase, FitsCell, Fits]
      | null => exact absurd h2 (Nat.not_lt_zero i)
    · refine .cons ?_ (rowMatches_append ?_ h).2
      · simp [PosPattern.erase, CellMatches]
      · rw [List.length_replicate, hlen, hl]

theorem specializePattern'_spec (ho : Opens T isTuple con ty tys0) (hrest : FitsRow T rest tys') :
    ∀ {pat : PosPattern} {ps : List PosPattern}, FitsCell T pat.erase ty →
      ps ∈ specializePattern' isTuple con pat rest → Specialized R T isTuple con tys0 tys' (pat :: rest) ps
  | .patConstructor con' pats p, ps, hc, hps => by
    simp only [specializePattern', Bool.and_eq_true, Bool.not_eq_true'] at hps
    split at hps
    · next h =>
      obtain ⟨rfl, he⟩ := h
      obtain rfl := List.mem_singleton.1 hps
      exact specialized_node (p := p) nofun (fun _ => he) ho hc hrest
    · cases hps
  | .patTuple pats p, ps, hc, hps => by
    simp only [specializePattern'] at hps
    split at hps
    · next h =>
      obtain rfl : isTuple = true := h
      obtain rfl := List.mem_singleton.1 hps
      exact specialized_node (p := p) (fun _ => rfl) nofun ho hc hrest
    · cases hps
  | .patAny p, ps, hc, hps => by
    obtain rfl := List.mem_singleton.1 hps
    exact specialized_any ho hc hrest
  | .patOr pat1 pat2 p, ps, hc, hps => by
    simp only [specializePattern', List.mem_append] at hps
    have hback : ∀ {pat : PosPattern}, Specialized R T isTuple con tys0 tys' (pat :: rest) ps →
        (∀ c, CellMatches R pat.erase c → CellMatches R (PosPattern.patOr pat1 pat2 p).erase c) →
        Specialized R T isTuple con tys0 tys' (.patOr pat1 pat2 p :: rest) ps := fun h hor =>
      ⟨h.fits, fun hopen hl hm => by
        obtain ⟨hpat, hrow⟩ := List.forall₂_cons.1 (h.back hopen hl hm)
        exact .cons (hor _ hpat) hrow⟩
    rcases hps with hps | hps
    · exact hback (specializePattern'_spec ho hrest hc.1 hps) fun c h => .inl h
    · exact hback (specializePattern'_spec ho hrest hc.2 hps) fun c h => .inr h
  | .patBind v pat p, ps, hc, hps => by
    simp only [specializePattern'] at hps
    have h : Specialized R T isTuple con tys0 tys' (pat :: rest) ps := specializePattern'_spec ho hrest hc hps
    exact ⟨h.fits, fun hopen hl hm => by
      obtain ⟨hpat, hrow⟩ := List.forall₂_cons.1 (h.back hopen hl hm)
      exact .cons hpat hrow⟩

theorem specializePattern_mem : ∀ (pat : PosPattern) {ps : List PosPattern},
    specializePattern isTuple con pat rest = some ps → ps ∈ specializePattern' isTuple con pat rest
  | .patConstructor con' pats p, ps, h | .patTuple pats p, ps, h => by
    simp only [specializePattern, Option.ite_none_right_eq_some, Option.some.injEq] at h
    rw [specializePattern', if_pos h.1, h.2]
    exact List.mem_singleton_self ps
  | .patAny p, ps, h => by
    obtain rfl := Option.some.inj h
    exact List.mem_singleton_self _
  | .patBind v pat p, ps, h => specializePattern_mem pat h

/-- The rows of a specialised matrix come from rows of the matrix. -/
theorem specialize_spec {pM : List (List PosPattern)} (ho : Opens T isTuple con ty tys0)
    (hrows : ∀ row ∈ pM, FitsRow T row (ty :: tys')) {row' : List PosPattern} (h : row' ∈ specialize isTuple con pM) :
    ∃ row ∈ pM, Specialized R T isTuple con tys0 tys' row row' := by
  obtain ⟨row, hrow, h⟩ := List.mem_filterMap.1 h
  obtain ⟨pat, rest, hc, hrest, rfl⟩ := List.forall₂_cons_right_iff.1 (hrows row hrow)
  exact ⟨_, hrow, specializePattern'_spec ho hrest hc (specializePattern_mem pat h)⟩

/-- The rows of a default matrix come from rows that begin with a wildcard. -/
theorem default_spec {pM : List (List PosPattern)} (hrows : ∀ row ∈ pM, FitsRow T row (ty :: tys'))
    {row' : List PosPattern} (h : row' ∈ default pM) :
    ∃ row ∈ pM, FitsRow T row' tys' ∧ ∀ {c : Cell V} {cs}, RowMatches R row' cs → RowMatches R row (c :: cs) := by
  obtain ⟨row, hrow, h⟩ := List.mem_filterMap.1 h
  obtain ⟨pat, rest, hc, hrest, rfl⟩ := List.forall₂_cons_right_iff.1 (hrows row hrow)
  refine ⟨_, hrow, ?_⟩
  unfold defaultRow at h
  split at h
  · next heq =>
    obtain ⟨rfl, rfl⟩ := List.cons.inj heq
    obtain rfl := Option.some.inj h
    exact ⟨hrest, fun hm => .cons (by simp [PosPattern.erase, CellMatches]) hm⟩
  · next heq =>
    obtain ⟨rfl, rfl⟩ := List.cons.inj heq
    obtain rfl := Option.some.inj h
    exact ⟨hrest, fun hm => .cons (by simp [PosPattern.erase, CellMatches]) hm⟩
  · cases h

end

end EvilHaxe.Matcher.Usefulness
