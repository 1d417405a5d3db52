/-
Rows of the matrix: what it means that they are well formed and that an outcome is the one they call
for, and why the operations of the compiler (`expand`, `select_column`, `specialize`, `default`) keep
both. An outcome is described row by row, so that an operation on rows is dealt with one row at a time.
-/
import EvilHaxe.Matcher.Matches

namespace EvilHaxe.Matcher

variable {V : Type} {R : Runtime V}

/-! ## Expressions -/

/-- The locals of the expression are among those of `L`. -/
def TExpr.Within (L : Nat → Prop) : TExpr → Prop
  | .tLocal v => L v
  | .tEnumParameter e _ _ | .tField e _ | .tArray e _ | .tExtract _ e | .tAssign _ e => e.Within L
  | .tConst _ | .tOther _ => True

/-- An expression of the program, with locals below `n`. -/
def TExpr.Below (n : Nat) : TExpr → Prop
  | .tLocal v => v < n
  | .tEnumParameter e _ _ | .tField e _ | .tArray e _ | .tExtract _ e => e.Below n
  | .tConst _ | .tOther _ => True
  | .tAssign _ _ => False

theorem TExpr.Below.within {n : Nat} : ∀ {e : TExpr}, e.Below n → e.Within (· < n)
  | .tLocal _, h => h
  | .tEnumParameter e _ _, h => TExpr.Below.within (e := e) h
  | .tField e _, h => TExpr.Below.within (e := e) h
  | .tArray e _, h => TExpr.Below.within (e := e) h
  | .tExtract _ e, h => TExpr.Below.within (e := e) h
  | .tConst _, _ => trivial
  | .tOther _, _ => trivial

theorem TExpr.Below.mono {n n' : Nat} (hn : n ≤ n') : ∀ {e : TExpr}, e.Below n → e.Below n'
  | .tLocal _, h => Nat.lt_of_lt_of_le h hn
  | .tEnumParameter e _ _, h => TExpr.Below.mono (e := e) hn h
  | .tField e _, h => TExpr.Below.mono (e := e) hn h
  | .tArray e _, h => TExpr.Below.mono (e := e) hn h
  | .tExtract _ e, h => TExpr.Below.mono (e := e) hn h
  | .tConst _, _ => trivial
  | .tOther _, _ => trivial

/-- The environments agree on the locals of `L`. -/
def Env.Agree (L : Nat → Prop) (ρ ρ' : Env V) : Prop := ∀ v, L v → ρ'.locals v = ρ.locals v

theorem Env.Agree.mono {L L' : Nat → Prop} {ρ ρ' : Env V} (h : ρ.Agree L' ρ') (hL : ∀ v, L v → L' v) : ρ.Agree L ρ' :=
  fun v hv => h v (hL v hv)

theorem TExpr.Within.mono {L L' : Nat → Prop} (hL : ∀ v, L v → L' v) : ∀ {e : TExpr}, e.Within L → e.Within L'
  | .tLocal v, h => hL v h
  | .tEnumParameter e _ _, h => TExpr.Within.mono (e := e) hL h
  | .tField e _, h => TExpr.Within.mono (e := e) hL h
  | .tArray e _, h => TExpr.Within.mono (e := e) hL h
  | .tExtract _ e, h => TExpr.Within.mono (e := e) hL h
  | .tAssign _ e, h => TExpr.Within.mono (e := e) hL h
  | .tConst _, _ => trivial
  | .tOther _, _ => trivial

theorem evalExpr_agree {L : Nat → Prop} {ρ ρ' : Env V} (h : ρ.Agree L ρ') :
    ∀ {e : TExpr}, e.Within L → evalExpr R ρ' e = evalExpr R ρ e
  | .tLocal v, he => h v he
  | .tEnumParameter e _ _, he => by simp only [evalExpr, evalExpr_agree h (e := e) he]
  | .tField e _, he => by simp only [evalExpr, evalExpr_agree h (e := e) he]
  | .tArray e _, he => by simp only [evalExpr, evalExpr_agree h (e := e) he]
  | .tExtract _ e, he => by simp only [evalExpr, evalExpr_agree h (e := e) he]
  | .tAssign _ e, he => by simp only [evalExpr, evalExpr_agree h (e := e) he]
  | .tConst _, _ => rfl
  | .tOther _, _ => rfl

/-! ## Matches of a row -/

variable (R)

/-- The matches of a row's patterns; a tuple pattern stands alone in its row. -/
def rowMatches : List Pattern → List V → List (List (Nat × V))
  | [pat], vs => topMatches R pat vs
  | pats, vs => matchAll R pats vs

/-- The values of the bindings made so far. -/
def bindValues (ρ : Env V) (bindings : List (Nat × TExpr)) : List (Nat × V) :=
  bindings.map fun b => (b.1, evalExpr R ρ b.2)

/-- `β` is a match of the row, the bindings made so far included, in any order. -/
def RowAlt (ρ : Env V) (vs : List V) (r : Row) (β : List (Nat × V)) : Prop :=
  ∃ β0 ∈ rowMatches R r.patterns vs, β.Perm (bindValues R ρ r.bindings ++ β0)

/-- The row is passed over: no match has a true guard. -/
def Fails (ρ : Env V) (vs : List V) (r : Row) : Prop :=
  ∀ β, RowAlt R ρ vs r β → guardTrue R r.case β = false

/-- The row is taken with this outcome; where `N`, no matter what is bound. -/
def Takes (N : Prop) (ρ : Env V) (vs : List V) (r : Row) (res : Option (Case × Env V)) : Prop :=
  ∃ ρ' β, res = some (r.case, ρ') ∧ RowAlt R ρ vs r β ∧ guardTrue R r.case β = true ∧
    (¬ N → ∀ x v, (x, v) ∈ β → ρ'.user x = some v)

/-- The outcome that the rows call for. -/
def RowSelects (N : Prop) (ρ : Env V) (vs : List V) : List Row → Option (Case × Env V) → Prop
  | [], res => res = none
  | r :: rows, res => Takes R N ρ vs r res ∨ (Fails R ρ vs r ∧ RowSelects N ρ vs rows res)

variable {R} {N : Prop}

theorem rowSelects_append {ρ : Env V} {vs : List V} {rows : List Row} {res : Option (Case × Env V)} :
    ∀ {l : List Row}, RowSelects R N ρ vs (l ++ rows) res →
      (∃ r ∈ l, Takes R N ρ vs r res) ∨ ((∀ r ∈ l, Fails R ρ vs r) ∧ RowSelects R N ρ vs rows res)
  | [], h => .inr ⟨nofun, h⟩
  | r :: l, h => by
    rcases h with ht | ⟨hf, h⟩
    · exact .inl ⟨r, List.mem_cons_self .., ht⟩
    · rcases rowSelects_append h with ⟨r', hr', ht⟩ | ⟨hfs, h⟩
      · exact .inl ⟨r', List.mem_cons_of_mem _ hr', ht⟩
      · exact .inr ⟨List.forall_mem_cons.2 ⟨hf, hfs⟩, h⟩

/-- `rs` has the matches of `r`. -/
def Splits (R : Runtime V) (ρ : Env V) (vs : List V) (r : Row) (ρ' : Env V) (vs' : List V)
    (rs : List Row) : Prop :=
  (∀ r' ∈ rs, r'.case = r.case) ∧ ∀ β, RowAlt R ρ vs r β ↔ ∃ r' ∈ rs, RowAlt R ρ' vs' r' β

/-- Replacing each row by rows that have its matches does not change the outcome. -/
theorem rowSelects_flatMap {ρ ρ' : Env V} {vs vs' : List V} {f : Row → List Row}
    {res : Option (Case × Env V)} :
    ∀ {rows : List Row}, (∀ r ∈ rows, Splits R ρ vs r ρ' vs' (f r)) →
      RowSelects R N ρ' vs' (rows.flatMap f) res → RowSelects R N ρ vs rows res
  | [], _, h => h
  | r :: rows, hs, h => by
    obtain ⟨⟨hcase, halt⟩, hs'⟩ := List.forall_mem_cons.1 hs
    rw [List.flatMap_cons] at h
    rcases rowSelects_append h with ⟨r', hr', ρ1, β, rfl, ha, hg, hu⟩ | ⟨hf, h⟩
    · refine .inl ⟨ρ1, β, by rw [hcase r' hr'], (halt β).2 ⟨r', hr', ha⟩, ?_, hu⟩
      rwa [hcase r' hr'] at hg
    · refine .inr ⟨fun β hβ => ?_, rowSelects_flatMap hs' h⟩
      obtain ⟨r', hr', ha⟩ := (halt β).1 hβ
      rw [← hcase r' hr']
      exact hf r' hr' β ha

theorem rowAlt_agree {L : Nat → Prop} {ρ ρ' : Env V} (h : ρ.Agree L ρ') {vs : List V} {r : Row}
    (hb : ∀ b ∈ r.bindings, b.2.Within L) {β : List (Nat × V)} :
    RowAlt R ρ' vs r β ↔ RowAlt R ρ vs r β := by
  have : bindValues R ρ' r.bindings = bindValues R ρ r.bindings :=
    List.map_congr_left fun b hbm => by rw [evalExpr_agree h (hb b hbm)]
  unfold RowAlt
  rw [this]

theorem rowSelects_agree {L : Nat → Prop} {ρ ρ' : Env V} (h : ρ.Agree L ρ') {vs : List V}
    {rows : List Row} {res : Option (Case × Env V)} (hb : ∀ r ∈ rows, ∀ b ∈ r.bindings, b.2.Within L)
    (hs : RowSelects R N ρ' vs rows res) : RowSelects R N ρ vs rows res := by
  have hid : rows.flatMap (fun r => [r]) = rows := by simp
  rw [← hid] at hs
  refine rowSelects_flatMap (fun r hr => ⟨by simp, fun β => ?_⟩) hs
  simpa using (rowAlt_agree h (hb r hr)).symm

/-! ## Well-formed rows -/

variable {Ty : Type} (T : PatternTyping R Ty)

/-- The patterns of the row may be matched against the types of the subjects. -/
def HasRow : List Pattern → List Ty → Prop
  | [pat], ts => ts ≠ [] ∧ FitsTop T pat ts
  | pats, ts => FitsAll T pats ts

/-- The variables of a row. -/
def Row.vars (r : Row) : List Nat := r.bindings.map Prod.fst ++ patsVars r.patterns

/-- A row that a well-formed case can become, with bindings to expressions of `B`. -/
structure RowOk (B : TExpr → Prop) (ts : List Ty) (r : Row) : Prop where
  typed : HasRow T r.patterns ts
  varsOk : VarsOkAll r.patterns
  nodup : r.vars.Nodup
  closed : ∀ g, r.case.caseGuard = some g → ∀ σ σ' : Nat → Option V,
    (∀ x ∈ r.vars, σ x = σ' x) → R.guard g σ = R.guard g σ'
  bound : ∀ b ∈ r.bindings, B b.2

variable {T}

/-- What an operation on rows has to keep of a row: its case, its variables and the rest. -/
theorem RowOk.of_perm {B B' : TExpr → Prop} {ts ts' : List Ty} {r r' : Row} (h : RowOk T B ts r)
    (hcase : r'.case = r.case) (hvars : r'.vars.Perm r.vars) (ht : HasRow T r'.patterns ts')
    (hok : VarsOkAll r'.patterns) (hb : ∀ b ∈ r'.bindings, B' b.2) : RowOk T B' ts' r' where
  typed := ht
  varsOk := hok
  nodup := hvars.nodup_iff.2 h.nodup
  closed g hg σ σ' hσ := h.closed g (hcase ▸ hg) σ σ' fun x hx => hσ x (hvars.mem_iff.2 hx)
  bound := hb

theorem RowOk.mono {B B' : TExpr → Prop} {ts : List Ty} {r : Row} (h : RowOk T B ts r) (hB : ∀ e, B e → B' e) :
    RowOk T B' ts r :=
  { h with bound := fun b hb => hB b.2 (h.bound b hb) }

theorem fitsAll_length : ∀ {pats : List Pattern} {ts : List Ty}, FitsAll T pats ts →
    pats.length = ts.length
  | [], [], _ => rfl
  | [], _ :: _, h => by simp [FitsAll] at h
  | _ :: _, [], h => by simp [FitsAll] at h
  | _ :: _, _ :: _, h => by
    simp only [FitsAll] at h
    exact congrArg (· + 1) (fitsAll_length h.2)

/-- On one value, a typed pattern matches as the pattern of a case. -/
theorem topMatches_eq {t : Ty} : ∀ {pat : Pattern} {v : V}, Fits T pat t →
    topMatches R pat [v] = patMatches R pat v
  | .patAny, _, _ => by simp [topMatches]
  | .patBind _ _, _, _ => by simp [topMatches]
  | .patConstructor _ _, _, _ => by simp [topMatches]
  | .patOr pat1 pat2, v, h => by
    simp only [Fits] at h
    simp only [topMatches, patMatches, topMatches_eq h.1, topMatches_eq h.2]
  | .patTuple _, _, h => by simp [Fits] at h
  | .patExtractor _ _, _, _ => by simp [topMatches]

theorem fitsTop_of_fits {t : Ty} : ∀ {pat : Pattern}, Fits T pat t → FitsTop T pat [t]
  | .patAny, h => h
  | .patBind _ _, h => h
  | .patConstructor _ _, h => h
  | .patOr pat1 pat2, h => by
    simp only [Fits] at h
    exact ⟨fitsTop_of_fits h.1, fitsTop_of_fits h.2⟩
  | .patTuple _, h => by simp [Fits] at h
  | .patExtractor _ _, h => h

/-- A typed row has the matches of its patterns side by side. -/
theorem rowMatches_eq {pats : List Pattern} {ts : List Ty} {vs : List V} (h : FitsAll T pats ts)
    (hl : vs.length = ts.length) : rowMatches R pats vs = matchAll R pats vs := by
  match pats, ts, vs, h, hl with
  | [], _, _, _, _ => rfl
  | [pat], [t], [v], h, _ =>
    simp only [FitsAll] at h
    simp [rowMatches, topMatches_eq h.1, matchAll]
  | [_], [_], [], _, hl => cases hl
  | [_], [_], _ :: _ :: _, _, hl => cases hl
  | [_], [], _, h, _ => simp [FitsAll] at h
  | [_], _ :: _ :: _, _, h, _ => simp [FitsAll] at h
  | _ :: _ :: _, _, _, _, _ => rfl

theorem hasRow_of_fitsAll {pats : List Pattern} {ts : List Ty} (h : FitsAll T pats ts) :
    HasRow T pats ts := by
  match pats, ts, h with
  | [], _, h => exact h
  | [pat], [t], h =>
    simp only [FitsAll] at h
    exact ⟨List.cons_ne_nil _ _, fitsTop_of_fits h.1⟩
  | [_], [], h => simp [FitsAll] at h
  | [_], _ :: _ :: _, h => simp [FitsAll] at h
  | _ :: _ :: _, _, h => exact h

end EvilHaxe.Matcher
