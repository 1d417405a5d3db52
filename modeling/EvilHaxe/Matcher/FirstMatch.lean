/-
What a switch with a test for `null` and the columns of extractors do to the order of the rows. Both can
leave the first match: a row of `null` overtakes, and a local of an extractor is read before it is assigned.
-/
import EvilHaxe.Matcher.Correctness

namespace EvilHaxe.Matcher

variable {V : Type} {R : Runtime V} {Ty : Type}

section

variable {T : PatternTyping R Ty} {n : Nat} {t : Ty} {ts : List Ty} {subject : TExpr} {subjects : List TExpr}
  {rows : List Row}

theorem FlatOk.ready (h : ∀ r ∈ rows, FlatOk T (TExpr.Below n) ts r) :
    ∀ r ∈ rows, RowOk T (Ready (· < n) fun _ _ => False) ts r := fun r hr =>
  (h r hr).ok.mono fun _ he => ⟨he.within, fun v e1 heq => absurd heq (he.plain v e1)⟩

/-- A prepared matrix in which every local is assigned. -/
theorem column_inScope {ctx : MatcherContext} (hbelow : ∀ e ∈ subjects, e.Below n)
    (hrows : ∀ r ∈ rows, FlatOk T (TExpr.Below n) ts r) :
    InScope T ctx n (· < n) (fun _ _ => False) [] ts subjects rows where
  scope := ⟨fun _ => id, nofun, nofun, fun _ _ => rfl⟩
  subjects_ok _ _ := .inl fun e he => .inl (hbelow e he).within
  rows_ok := FlatOk.ready hrows

theorem correctBelow (ctx : MatcherContext) {fuel need : Nat} (h : need ≤ fuel + 1) :
    CorrectBelow T ctx (compileRows ctx fuel) (InOrder R ctx fuel) need :=
  fun n d ts subjects rows hm hlt => compileRows_correct ctx fuel n d ts subjects rows (by omega) hm

end

/-- A leaf that is taken is in order. -/
theorem inOrder_leaf {ctx : MatcherContext} {fuel n : Nat} {d : Deferred} {subjects : List TExpr} {r : Row}
    {rows : List Row} {ρ : Env V} (hw : r.patterns.all isWildcardPattern = true)
    (h : ¬ Fails R ρ (subjects.map (evalExpr R ρ)) r) : InOrder R ctx (fuel + 1) n d subjects (r :: rows) ρ := by
  rw [InOrder, if_pos hw]
  exact fun hf => absurd hf h

/-- `compile_switch` on a matrix with `null` patterns: it succeeds, and where the switches below are in order its
tree reaches the first row with a match whose guard is true exactly when no row of `null` overtakes. -/
theorem compileSwitch_nulls_iff (T : PatternTyping R Ty) (hnulls : T.nulls) (hextractors : ¬ T.extractors)
    (ctx : MatcherContext) (fuel n : Nat) (t : Ty) (ts : List Ty) (subject : TExpr) (subjects : List TExpr)
    (rows : List Row) (hfuel : fuelNeed (subjects.length + 1) (rowsWeight rows) ≤ fuel + 1)
    (hl : subjects.length = ts.length) (hbelow : ∀ e ∈ subject :: subjects, e.Below n)
    (hrows : ∀ r ∈ rows, FlatOk T (TExpr.Below n) (t :: ts) r) :
    ∃ dt d', compileSwitch ctx (compileRows ctx fuel) n [] (subject :: subjects) rows = .ok (dt, d') ∧ ∀ ρ : Env V,
      List.Forall₂ T.val (t :: ts) ((subject :: subjects).map (evalExpr R ρ)) →
      BelowSwitch R ctx (InOrder R ctx fuel) n [] subject subjects rows ρ →
      (RowSelects R True ρ ((subject :: subjects).map (evalExpr R ρ)) rows (evalDt R ρ dt) ↔
        (R.isNull (evalExpr R ρ subject) = true → Kept R ρ ((subject :: subjects).map (evalExpr R ρ)) rows)) := by
  have hany : ∀ r ∈ rows, FlatOk T (fun _ => True) (t :: ts) r := fun r hr => (hrows r hr).mono fun _ _ => trivial
  have hex : NoExtractor rows := by
    by_contra hex
    exact hextractors (extractors_of_column hany hex)
  obtain ⟨hsub, hsubs⟩ := List.forall_mem_cons.1 hbelow
  obtain ⟨dt, d', hdt, -, hcorrect⟩ := compileSwitch_correct [] hany hex hl hsub hsubs (correctBelow ctx hfuel)
  refine ⟨dt, d', hdt, fun ρ hval hinOrder => ?_⟩
  have hs := hcorrect _ _ (column_inScope hbelow hrows) (fun _ => .inl hsub.within) ρ ρ ⟨fun _ _ => rfl, nofun⟩ hval
    fun _ => hinOrder
  have htrue : T.nulls = True := eq_true hnulls
  cases hnull : R.isNull (evalExpr R ρ subject) with
  | true =>
    have hfirst := hs.null hnull
    rw [htrue] at hfirst
    rw [rowSelects_null_iff hfirst]
    exact ⟨fun h _ => h, fun h => h rfl⟩
  | false =>
    have hother := hs.other hnull
    rw [htrue] at hother
    exact iff_of_true hother nofun

/-- The values are integers and `null`; the first extractor has the value `1`, the others return their subject. -/
def intRuntime : Runtime (Option Int) where
  const
    | .tInt i => some i
    | _ => none
  enumParameter _ _ v := v
  field _ v := v
  index _ v := v
  extract
    | 0, _ => some 1
    | _, v => v
  other _ := none
  holds
    | .conConst (.tInt i), v => v = some i
    | .conConst .tNull, v => v = none
    | _, _ => false
  isNull v := v = none
  guard _ _ := false

def intTyping : Typing intRuntime Unit where
  con _ c := ∃ i, c = .conConst (.tInt i)
  sub _ _ := []
  val _ _ := True
  sub_length := by
    rintro _ c ⟨i, rfl⟩
    rfl
  parts := by
    rintro _ c v ⟨i, rfl⟩ _ _
    exact .nil
  equal_eq := by
    rintro _ c c' ⟨i, rfl⟩ ⟨j, rfl⟩ he
    exact congrArg _ (of_decide_eq_true he)
  exclusive := by
    rintro _ c c' v ⟨i, rfl⟩ ⟨j, rfl⟩ he _ hc
    obtain rfl : v = some i := of_decide_eq_true hc
    exact decide_eq_false fun hj => by
      obtain rfl := Option.some.inj hj
      simp [Con.equal] at he
  null := by
    rintro _ c v ⟨i, rfl⟩ _ hn
    obtain rfl : v = none := of_decide_eq_true hn
    rfl

def nullTyping : PatternTyping intRuntime Unit :=
  { intTyping.plain with nulls := True, null_test := fun _ {_ _} _ => rfl }

def extractTyping : PatternTyping intRuntime Unit :=
  { intTyping.plain with
    extractors := True
    extracted := fun _ _ => some ()
    extracted_allowed := fun _ => trivial
    extracted_val := fun _ _ => trivial }

def intPattern (i : Int) : Pattern := .patConstructor (.conConst (.tInt i)) []

def nullPat : Pattern := .patConstructor (.conConst .tNull) []

def intEnv (vs : List (Option Int)) : Env (Option Int) := ⟨fun v => (vs[v]?).join, fun _ => none⟩

/-- `case [1, _]: case [_, 1]: case [null, _]:` -/
def overtakenCases : List (Case × Pattern) :=
  [(⟨none, 0⟩, .patTuple [intPattern 1, .patAny]), (⟨none, 1⟩, .patTuple [.patAny, intPattern 1]),
   (⟨none, 2⟩, .patTuple [nullPat, .patAny])]

/-- On `[null, 1]` the second case matches, and the third is taken. -/
theorem null_overtakes : ∃ dt, compile plainContext 2 [.tLocal 0, .tLocal 1] overtakenCases = .ok dt ∧
    (∀ c ∈ overtakenCases, CaseFits nullTyping [(), ()] c) ∧
    Accepts intRuntime (⟨none, 1⟩, .patTuple [.patAny, intPattern 1]) [none, some 1] ∧
    (evalDt intRuntime (intEnv [none, some 1]) dt).map Prod.fst = some ⟨none, 2⟩ ∧
    ¬ Selects intRuntime overtakenCases [none, some 1] (evalDt intRuntime (intEnv [none, some 1]) dt) := by
  have hint (i : Int) : Fits nullTyping (intPattern i) () := .inr ⟨⟨i, rfl⟩, nofun, trivial⟩
  have haccepts : Accepts intRuntime (⟨none, 1⟩, .patTuple [.patAny, intPattern 1]) [none, some 1] :=
    ⟨[], List.mem_singleton_self _, rfl⟩
  refine ⟨_, rfl, ?_, haccepts, rfl, ?_⟩
  · refine List.forall_mem_cons.2 ⟨⟨⟨hint 1, trivial, trivial⟩, ⟨trivial, trivial, trivial⟩, .nil, nofun⟩,
      List.forall_mem_cons.2 ⟨⟨⟨trivial, hint 1, trivial⟩, ⟨trivial, trivial, trivial⟩, .nil, nofun⟩,
      List.forall_mem_cons.2 ⟨⟨⟨.inl ⟨rfl, rfl, trivial⟩, trivial, trivial⟩, ⟨trivial, trivial, trivial⟩, .nil, nofun⟩,
        nofun⟩⟩⟩
  · rintro ⟨_ | ⟨c0, _ | ⟨c1, pre⟩⟩, c, post, he, hc, hpre, -⟩
    · obtain ⟨rfl, -⟩ := List.cons.inj he
      cases hc
    · obtain ⟨-, he⟩ := List.cons.inj he
      obtain ⟨rfl, -⟩ := List.cons.inj he
      cases hc
    · obtain ⟨-, he⟩ := List.cons.inj he
      obtain ⟨rfl, -⟩ := List.cons.inj he
      exact hpre _ (List.mem_cons_of_mem _ (List.mem_cons_self ..)) haccepts

/-- The rows `[null, _]` and `[_, 1]`. -/
def nullRows : List Row := [⟨⟨none, 0⟩, [], [nullPat, .patAny]⟩, ⟨⟨none, 1⟩, [], [.patAny, intPattern 1]⟩]

theorem compileSwitch_nulls_iff_rows : ∃ dt d',
    compileSwitch plainContext (compileRows plainContext 100) 2 [] [.tLocal 0, .tLocal 1] nullRows = .ok (dt, d') ∧
      (RowSelects intRuntime True (intEnv [none, some 1]) [none, some 1] nullRows
          (evalDt intRuntime (intEnv [none, some 1]) dt) ↔
        (intRuntime.isNull none = true → Kept intRuntime (intEnv [none, some 1]) [none, some 1] nullRows)) := by
  have hint (i : Int) : Fits nullTyping (intPattern i) () := .inr ⟨⟨i, rfl⟩, nofun, trivial⟩
  have hflat : ∀ r ∈ nullRows, FlatOk nullTyping (TExpr.Below 2) [(), ()] r := by
    have hnull : FitsAll nullTyping [nullPat, .patAny] [(), ()] := ⟨.inl ⟨rfl, rfl, trivial⟩, trivial, trivial⟩
    have hany : FitsAll nullTyping [.patAny, intPattern 1] [(), ()] := ⟨trivial, hint 1, trivial⟩
    refine List.forall_mem_cons.2 ⟨⟨⟨hnull, ⟨trivial, trivial, trivial⟩, .nil, nofun, nofun⟩, hnull, ?_⟩,
      List.forall_mem_cons.2 ⟨⟨⟨hany, ⟨trivial, trivial, trivial⟩, .nil, nofun, nofun⟩, hany, ?_⟩, nofun⟩⟩
    · rintro _ ⟨⟩
      trivial
    · rintro _ ⟨⟩
      trivial
  obtain ⟨dt, d', hdt, h⟩ := compileSwitch_nulls_iff nullTyping trivial id plainContext 100 2 () [()] (.tLocal 0)
    [.tLocal 1] nullRows (by decide) rfl
    (List.forall_mem_cons.2 ⟨Nat.zero_lt_two, List.forall_mem_singleton.2 Nat.one_lt_two⟩) hflat
  refine ⟨dt, d', hdt, h (intEnv [none, some 1]) (.cons trivial (.cons trivial .nil)) ⟨nofun, fun _ d' _ => ?_, nofun, nofun⟩⟩
  exact inOrder_leaf rfl fun hfails => nomatch hfails [] ⟨[], List.mem_singleton_self _, .nil⟩

/-- `case [7, 5, _]: case [f(_) => y, _, g(_) => 1]: case [f(_) => 1, _, _]:` -/
def passedOverCases : List (Case × Pattern) :=
  [(⟨none, 0⟩, .patTuple [intPattern 7, intPattern 5, .patAny]),
   (⟨none, 1⟩, .patTuple [.patExtractor 0 (.patBind 0 .patAny), .patAny, .patExtractor 1 (intPattern 1)]),
   (⟨none, 2⟩, .patTuple [.patExtractor 0 (intPattern 1), .patAny, .patAny])]

/-- The switch on the second extractor, whose local is assigned there. -/
def secondExtractor (dflt : Dt) : Dt :=
  .bind [] (.switch (.tAssign 4 (.tExtract 1 (.tLocal 2)))
    [.mk (.conConst (.tInt 1)) true (.bind [] (.bind [(.user 0, .tLocal 3)] (.leaf ⟨none, 1⟩)))] dflt)

/-- The switch on the first extractor. -/
def firstExtractor (e : TExpr) : Dt :=
  .switch e [.mk (.conConst (.tInt 1)) true (.bind [] (secondExtractor (.leaf ⟨none, 2⟩)))] (secondExtractor .fail)

/-- The tree of these cases: the first extractor is assigned where the first column is not `7`, and only read where
it is. -/
def passedOverTree : Dt :=
  .bind [] (.switch (.tLocal 0)
    [.mk (.conConst (.tInt 7)) true (.bind [] (.switch (.tLocal 1)
      [.mk (.conConst (.tInt 5)) true (.bind [] (.leaf ⟨none, 0⟩))] (firstExtractor (.tLocal 3))))]
    (firstExtractor (.tAssign 3 (.tExtract 0 (.tLocal 0)))))

set_option maxRecDepth 4000 in
theorem compile_passedOver :
    compile plainContext 3 [.tLocal 0, .tLocal 1, .tLocal 2] passedOverCases = .ok passedOverTree := rfl

/-- The rows `f(_) => y` and `_`. -/
def extractorRows : List Row :=
  [⟨⟨none, 0⟩, [], [.patExtractor 0 (.patBind 0 .patAny)]⟩, ⟨⟨none, 1⟩, [], [.patAny]⟩]

end EvilHaxe.Matcher
