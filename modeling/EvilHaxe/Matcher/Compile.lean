/-
The pattern matcher's compiler: `constructor.ml`, `pattern.ml`, `decisionTree.ml` and `compile.ml`.
Rows of patterns against a list of subjects become a decision tree.

Left out are positions, and what only serves the printing of the tree: the sharing of equal subtrees
(`hashcons`), and the mark of unused locals. Fresh locals are numbered by scope; the source numbers them
globally. The expression of an extractor is known by a number, as a function of its `_`.
-/
import Mathlib.Data.List.Basic
import Mathlib.Algebra.Ring.Nat

namespace EvilHaxe.Matcher

/-! ## Constructors and patterns -/

/-- `Type.tconstant`. -/
inductive TConstant where
  | tInt (i : Int)
  | tFloat (s : String)
  | tString (s : String)
  | tBool (b : Bool)
  | tNull | tThis | tSuper
  deriving DecidableEq, Repr

/-- `Type.tenum_field`: its index, and the names of its arguments when it has a function type. -/
structure TEnumField where
  efIndex : Nat
  efArgs : Option (List String)
  deriving DecidableEq, Repr

/-- `Constructor.t_kind`. Enums, classes, class fields and modules are known by a number. -/
inductive Con where
  | conConst (c : TConstant)
  | conEnum (en : Nat) (ef : TEnumField)
  | conStatic (c cf : Nat)
  | conTypeExpr (mt : Nat)
  | conFields (sl : List String)
  | conArray (i : Nat)
  deriving DecidableEq, Repr

/-- `Constructor.equal`. -/
def Con.equal : Con → Con → Bool
  | .conConst ct1, .conConst ct2 => ct1 = ct2
  | .conEnum en1 ef1, .conEnum en2 ef2 => en1 = en2 && ef1 = ef2
  | .conStatic c1 cf1, .conStatic c2 cf2 => c1 = c2 && cf1 = cf2
  | .conTypeExpr mt1, .conTypeExpr mt2 => mt1 = mt2
  | .conFields _, .conFields _ => true
  | .conArray i1, .conArray i2 => i1 = i2
  | _, _ => false

/-- `Constructor.arity`. -/
def Con.arity : Con → Nat
  | .conEnum _ ⟨_, some args⟩ => args.length
  | .conEnum _ ⟨_, none⟩ => 0
  | .conConst _ => 0
  | .conFields fields => fields.length
  | .conArray i => i
  | .conTypeExpr _ => 0
  | .conStatic _ _ => 0

/-- `Pattern.t`. -/
inductive Pattern where
  | patConstructor (con : Con) (patterns : List Pattern)
  | patAny
  | patBind (v : Nat) (pat : Pattern)
  | patOr (pat1 pat2 : Pattern)
  | patTuple (patterns : List Pattern)
  | patExtractor (ex : Nat) (pat : Pattern)

/-! ## Decision trees -/

/-- The expressions the compiler builds for subjects. A subject that is neither a local nor a
constant is evaluated once, into a local. -/
inductive TExpr where
  | tConst (c : TConstant)
  | tLocal (v : Nat)
  | tEnumParameter (e : TExpr) (ef : TEnumField) (i : Nat)
  | tField (e : TExpr) (s : String)
  | tArray (e : TExpr) (i : Nat)
  | tExtract (ex : Nat) (e : TExpr)
  | tAssign (v : Nat) (e : TExpr)
  | tOther (id : Nat)
  deriving DecidableEq, Repr

/-- A variable of a `Bind` node: a pattern variable or a generated local. -/
inductive TVar where
  | user (v : Nat)
  | gen (v : Nat)
  deriving DecidableEq, Repr

/-- `Case.t`: its guard and its body, known by numbers. -/
structure Case where
  caseGuard : Option Nat
  caseExpr : Nat
  deriving DecidableEq, Repr

mutual

/-- `DecisionTree.t`. -/
inductive Dt where
  | leaf (case : Case)
  | switch (e : TExpr) (cases : List SwitchCase) (dflt : Dt)
  | bind (bl : List (TVar × TExpr)) (dt : Dt)
  | guard (e : Nat) (dt1 dt2 : Dt)
  | guardNull (e : TExpr) (dt1 dt2 : Dt)
  | fail

/-- `DecisionTree.switch_case`. -/
inductive SwitchCase where
  | mk (con : Con) (unguarded : Bool) (dt : Dt)

end

/-- A row of the matrix: its case, the bindings made so far, the patterns left. -/
structure Row where
  case : Case
  bindings : List (Nat × TExpr)
  patterns : List Pattern

/-- The errors of the compiler, and the exception `Extractor`. -/
inductive MatchError where
  | internalMatchFailure
  | notEnoughPatterns
  | tooManyPatterns
  | unexpectedPattern
  | extractor
  | outOfFuel
  deriving DecidableEq, Repr

/-! ## Operations on the matrix -/

/-- `get_sub_subjects`. -/
def getSubSubjects (e : TExpr) : Con → List (String × TExpr)
  | .conEnum _ ⟨i, some args⟩ =>
    args.mapIdx fun k n => (n, .tEnumParameter e ⟨i, some args⟩ k)
  | .conEnum _ ⟨_, none⟩ => []
  | .conFields sl => sl.map fun s => (s, .tField e s)
  | .conArray n => (List.range n).map fun i => ("a" ++ toString i, .tArray e i)
  | .conConst _ | .conTypeExpr _ | .conStatic _ _ => []

/-- The local `specialize` of `specialize`, by the first pattern of the row. -/
def specializePattern (subject : TExpr) (con : Con) (case : Case) :
    List (Nat × TExpr) → Pattern → List Pattern → Option Row
  | bindings, .patConstructor con' patterns1, patterns2 =>
    if con.equal con' then some ⟨case, bindings, patterns1 ++ patterns2⟩ else none
  | bindings, .patAny, patterns2 =>
    some ⟨case, bindings, List.replicate con.arity .patAny ++ patterns2⟩
  | bindings, .patBind v pat1, patterns =>
    specializePattern subject con case ((v, subject) :: bindings) pat1 patterns
  | _, _, _ => none

def specializeRow (subject : TExpr) (con : Con) (r : Row) : Option Row :=
  match r.patterns with
  | pat :: patterns => specializePattern subject con r.case r.bindings pat patterns
  | [] => none

/-- `specialize`. -/
def specialize (subject : TExpr) (con : Con) (cases : List Row) : List Row :=
  cases.filterMap (specializeRow subject con)

/-- The local `default` of `default`, by the first pattern of the row. -/
def defaultPattern (subject : TExpr) (case : Case) :
    List (Nat × TExpr) → Pattern → List Pattern → Option Row
  | bindings, .patAny, patterns => some ⟨case, bindings, patterns⟩
  | bindings, .patBind v pat1, patterns =>
    defaultPattern subject case ((v, subject) :: bindings) pat1 patterns
  | _, _, _ => none

def defaultRow (subject : TExpr) (r : Row) : Option Row :=
  match r.patterns with
  | pat :: patterns => defaultPattern subject r.case r.bindings pat patterns
  | [] => none

/-- `default`. -/
def default (subject : TExpr) (cases : List Row) : List Row :=
  cases.filterMap (defaultRow subject)

/-- `is_wildcard_pattern`. -/
def isWildcardPattern : Pattern → Bool
  | .patAny => true
  | .patBind _ pat1 => isWildcardPattern pat1
  | _ => false

mutual

/-- The local `expand` of `expand`, by the first pattern of the row. -/
def expandPattern (f : Pattern → Pattern) : Pattern → List Pattern → List (List Pattern)
  | .patOr pat1 pat2, patterns => expandPattern f pat1 patterns ++ expandPattern f pat2 patterns
  | .patBind v pat1, patterns => expandPattern (fun pat2 => f (.patBind v pat2)) pat1 patterns
  | .patTuple patterns1, patterns2 => expandTuple f patterns1 patterns2
  | pat, patterns => [f pat :: patterns]

/-- `expand` at a tuple, which stands alone in its row. -/
def expandTuple (f : Pattern → Pattern) : List Pattern → List Pattern → List (List Pattern)
  | [], patterns2 => [patterns2]
  | pat :: patterns1, patterns2 => expandPattern f pat (patterns1 ++ patterns2)

end

/-- `expand` on the patterns of a row. -/
def expandPatterns : List Pattern → List (List Pattern)
  | pat :: patterns => expandPattern id pat patterns
  | [] => [[]]

/-- `expand`. -/
def expand (cases : List Row) : List Row :=
  cases.flatMap fun r => (expandPatterns r.patterns).map fun ps => { r with patterns := ps }

/-- The local `loop` of `select_column`, on one pattern: does it go on to the next column? -/
def skipColumn : Pattern → Bool
  | .patAny => true
  | .patExtractor _ _ => true
  | .patBind _ pat1 => skipColumn pat1
  | _ => false

/-- The local `loop` of `select_column`: the first column of the row that is neither a
wildcard nor an extractor. -/
def selectIndex : Nat → List Pattern → Nat
  | _, [] => 0
  | i, pat :: patterns => if skipColumn pat then selectIndex (i + 1) patterns else i

/-- The local `sort` of `select_column`. -/
def sortColumn {α : Type} (i : Nat) : Nat → List α → List α → List α
  | cur, acc, x :: l => if i = cur then x :: (acc ++ l) else sortColumn i (cur + 1) (x :: acc) l
  | _, acc, [] => acc

/-- `select_column`: move the column to the front. -/
def selectColumn (subjects : List TExpr) (cases : List Row) : List TExpr × List Row :=
  let i := match cases with | r :: _ => selectIndex 0 r.patterns | [] => 0
  if i = 0 then (subjects, cases)
  else (sortColumn i 0 [] subjects,
    cases.map fun r => { r with patterns := sortColumn i 0 [] r.patterns })

/-! ## Leaves -/

/-- The bindings of a wildcard pattern, in front of those already made. -/
def bindAll (subject : TExpr) : List (Nat × TExpr) → Pattern → List (Nat × TExpr)
  | bindings, .patBind v pat1 => bindAll subject ((v, subject) :: bindings) pat1
  | bindings, _ => bindings

/-- The local `loop` of `compile_leaf`. -/
def leafBindings : List Pattern → List TExpr → List (Nat × TExpr) →
    Except MatchError (List (Nat × TExpr))
  | [.patAny], [], bindings => .ok bindings
  | [pat], subject :: subjects, bindings =>
    if isWildcardPattern pat then .ok (bindAll subject bindings pat)
    else leafBindings [] subjects (bindAll subject bindings pat)
  | pat :: patterns, subject :: subjects, bindings =>
    leafBindings patterns subjects (bindAll subject bindings pat)
  | [], [], bindings => .ok bindings
  | [], _ :: _, _ => .error .notEnoughPatterns
  | _ :: _, [], _ => .error .tooManyPatterns

/-! ## The constructors of a column -/

/-- `ConTable.replace` on a table whose values tell whether the constructor has an unguarded row. -/
def replaceCon (con : Con) (unguarded : Bool) : List (Con × Bool) → List (Con × Bool)
  | [] => [(con, unguarded)]
  | (con', u) :: sigma =>
    if con'.equal con then (con, u || unguarded) :: sigma
    else (con', u) :: replaceCon con unguarded sigma

/-- The local `loop` of `get_column_sigma`, on the first pattern of a row: what it adds to the table
and to the rows with a `null` pattern. -/
def columnPattern (subject : TExpr) (r : Row) (patterns : List Pattern) :
    List (Nat × TExpr) → Pattern → List (Con × Bool) × List Row →
    Except MatchError (List (Con × Bool) × List Row)
  | bindings, .patConstructor con _, (sigma, null) =>
    if con = .conConst .tNull then .ok (sigma, null ++ [⟨r.case, bindings, patterns⟩])
    else .ok (replaceCon con r.case.caseGuard.isNone sigma, null)
  | bindings, .patBind v pat1, acc => columnPattern subject r patterns ((v, subject) :: bindings) pat1 acc
  | _, .patAny, acc => .ok acc
  | _, .patExtractor _ _, _ => .error .extractor
  | _, _, _ => .error .unexpectedPattern

/-- `get_column_sigma`, before its sort. -/
def getColumnSigma (subject : TExpr) :
    List Row → List (Con × Bool) × List Row → Except MatchError (List (Con × Bool) × List Row)
  | [], acc => .ok acc
  | r :: cases, acc =>
    match r.patterns with
    | pat :: patterns => do getColumnSigma subject cases (← columnPattern subject r patterns r.bindings pat acc)
    | [] => .error .internalMatchFailure

/-! ## Subjects -/

/-- The locals to be assigned at their first use (`BindDeferred`), with what is assigned. A local that
is not among them is assigned where it is bound, or has been assigned by a switch around. -/
abbrev Deferred := List (Nat × TExpr)

/-- `subject#get_scoped_expr`: at its first use the local is assigned. -/
def getScopedExpr (d : Deferred) (e : TExpr) : TExpr :=
  match e with
  | .tLocal v =>
    match d.lookup v with
    | some e1 => .tAssign v e1
    | none => e
  | _ => e

/-- The mark that `subject#get_expr` leaves. -/
def markUsed (e : TExpr) (d : Deferred) : Deferred :=
  match e with
  | .tLocal v => d.filter fun p => p.1 ≠ v
  | _ => d

/-- `reset_subject`: in an unrelated scope the local has to be assigned again. -/
def resetSubject (d : Deferred) (e : TExpr) (d' : Deferred) : Deferred :=
  match e with
  | .tLocal v =>
    match d.lookup v with
    | some e1 => (v, e1) :: d'
    | none => d'
  | _ => d'

/-! ## Compilation -/

/-- What the compiler takes from its context: the order in which it lists the constructors of a
column (the fold of a hash table, sorted by position) and the types known to admit `null`. -/
structure MatcherContext where
  order : List (Con × Bool) → List (Con × Bool)
  order_perm : ∀ sigma, (order sigma).Perm sigma
  isExplicitNull : TExpr → Bool

/-- A tree, and the locals that are still to be assigned at their first use. -/
abbrev Compiled := Except MatchError (Dt × Deferred)

/-- `compile_leaf`, given `compile` for the remaining rows. -/
def compileLeaf (compile : Deferred → List TExpr → List Row → Compiled) (d : Deferred) (subjects : List TExpr)
    (r : Row) (cases : List Row) : Compiled := do
  let dt := Dt.leaf r.case
  let (dt, d) ← match r.case.caseGuard with
    | none => pure (dt, d)
    | some e => do
      let (dt2, d) ← compile d subjects cases
      pure (.guard e dt dt2, d)
  let bindings ← leafBindings r.patterns (subjects.map (getScopedExpr d)) r.bindings
  pure (if bindings.isEmpty then dt
    else .bind (bindings.reverse.map fun b => (.user b.1, b.2)) dt, d)

/-- The local `loop` of a branch of `compile_switch`: the bindings of the sub-subjects to fresh
locals, numbered from `n`, and these locals. -/
def subLocals : Nat → List (String × TExpr) → List (TVar × TExpr) × List TExpr
  | _, [] => ([], [])
  | n, (_, e) :: subSubjects =>
    ((.gen n, e) :: (subLocals (n + 1) subSubjects).1, .tLocal n :: (subLocals (n + 1) subSubjects).2)

/-- The branches of `compile_switch`: the matrix specialised to each constructor. -/
def compileBranches (compile : Nat → Deferred → List TExpr → List Row → Compiled) (n : Nat)
    (subject : TExpr) (subjects : List TExpr) (cases : List Row) :
    Deferred → List (Con × Bool) → Except MatchError (List SwitchCase × Deferred)
  | d, [] => .ok ([], d)
  | d, con :: sigma => do
    let subSubjects := getSubSubjects subject con.1
    let (bindings, locals) := subLocals n subSubjects
    let (dt, d) ← compile (n + subSubjects.length) d (locals ++ subjects) (specialize subject con.1 cases)
    let (switchCases, d) ← compileBranches compile n subject subjects cases d sigma
    pure (.mk con.1 con.2 (.bind bindings dt) :: switchCases, d)

/-- The subject in the test for `null`, in the switch and in the bindings of the default rows: the first
of these that is run uses it for the first time. -/
def subjectUses (explicitNull : Bool) (null : List Row) (switchCases : List SwitchCase)
    (switchSubject subject : TExpr) : TExpr × TExpr × TExpr :=
  match null with
  | [] =>
    if explicitNull then (switchSubject, subject, subject)
    else match switchCases with
      | [] => (subject, subject, switchSubject)
      | _ => (subject, switchSubject, subject)
  | _ => (switchSubject, subject, subject)

/-- `compile_switch`, given `compile` for smaller matrices. -/
def compileSwitch (ctx : MatcherContext) (compile : Nat → Deferred → List TExpr → List Row → Compiled) (n : Nat)
    (d : Deferred) (subjects : List TExpr) (cases : List Row) : Compiled :=
  match subjects with
  | [] => .error .internalMatchFailure
  | subject :: subjects => do
    let switchSubject := getScopedExpr d subject
    let d1 := markUsed subject d
    let (sigma, null) ← getColumnSigma subject cases ([], [])
    let (switchCases, d2) ← compileBranches compile n subject subjects cases d1 (ctx.order sigma)
    let (subjectNull, subjectSwitch, subjectDefault) :=
      subjectUses (ctx.isExplicitNull subject) null switchCases switchSubject subject
    let dflt := default subjectDefault cases
    let (switchDefault, d3) ← compile n d2 subjects dflt
    let dt := if switchCases.isEmpty then switchDefault
      else .switch subjectSwitch switchCases switchDefault
    let (dt, d4) ← match null with
      | [] => pure (if ctx.isExplicitNull subject then .guardNull subjectNull switchDefault dt else dt, d3)
      | _ :: _ => do
        let (dtNull, d4) ← compile n d3 subjects (null ++ dflt)
        pure (.guardNull subjectNull dtNull dt, d4)
    pure (dt, resetSubject d subject d4)

/-! ## Extractors -/

/-- The extractor in the first column of a row: its expression, its pattern, and the bindings around it. -/
def extractorOf (subject : TExpr) : List (Nat × TExpr) → Pattern → Option (Nat × Pattern × List (Nat × TExpr))
  | bindings, .patExtractor ex pat => some (ex, pat, bindings)
  | bindings, .patBind v pat1 => extractorOf subject ((v, subject) :: bindings) pat1
  | _, _ => none

/-- The extractor of a row with its number. -/
structure RowExtractor where
  ex : Nat
  pat : Pattern
  i : Nat
  bindings : List (Nat × TExpr)

/-- The fold of `compile_extractors`: the number of extractors, and the rows with those they have. -/
def findExtractors (subject : TExpr) : Nat → List Row → Nat × List (Row × Option RowExtractor)
  | i, [] => (i, [])
  | i, r :: cases =>
    match r.patterns.head?.bind (extractorOf subject []) with
    | some (ex, pat, bindings) =>
      let (num, cases) := findExtractors subject (i + 1) cases
      (num, (r, some ⟨ex, pat, i + 1, bindings⟩) :: cases)
    | none =>
      let (num, cases) := findExtractors subject i cases
      (num, (r, none) :: cases)

/-- `make_offset_list`. -/
def makeOffsetList {α : Type} (left right : Nat) (middle other : α) : List α :=
  List.replicate left other ++ [middle] ++ List.replicate right other

/-- What the local `loop` of `compile_extractors` makes: rows, subjects, and bindings of new locals. -/
structure ExtractorColumns where
  cases : List Row
  subjects : List TExpr
  binds : List (Nat × TExpr)

/-- The local `loop` of `compile_extractors`. New locals are numbered from `n`. -/
def extractorLoop (subject : TExpr) (num : Nat) :
    Nat → List (TExpr × TExpr × Nat) → List (Row × Option RowExtractor) → Except MatchError ExtractorColumns
  | _, _, [] => .ok ⟨[], [], []⟩
  | n, lut, (r, ex) :: cases =>
    match r.patterns, ex with
    | [], _ => .error .internalMatchFailure
    | pattern1 :: patterns, none => do
      let c ← extractorLoop subject num n lut cases
      let row := { r with patterns := makeOffsetList 0 num pattern1 .patAny ++ patterns }
      pure { c with cases := row :: c.cases }
    | _ :: patterns, some ex => do
      let e1 := TExpr.tExtract ex.ex subject
      let row (i : Nat) : Row :=
        ⟨r.case, ex.bindings ++ r.bindings, makeOffsetList i (num - i) ex.pat .patAny ++ patterns⟩
      match lut.lookup e1 with
      | none => do
        let c ← extractorLoop subject num (n + 1) ((e1, .tLocal n, ex.i) :: lut) cases
        pure ⟨row ex.i :: c.cases, .tLocal n :: c.subjects, (n, e1) :: c.binds⟩
      | some (subject', i) => do
        let c ← extractorLoop subject num n lut cases
        pure ⟨row i :: c.cases, subject' :: c.subjects, c.binds⟩

/-- The `Bind` node of the new locals. Those to be assigned at their first use are only declared. -/
def assigned (binds : List (Nat × TExpr)) (d : Deferred) : List (TVar × TExpr) :=
  (binds.filter fun b => (d.lookup b.1).isNone).map fun b => (.gen b.1, b.2)

/-- `compile_extractors`, given `compile` for smaller matrices. -/
def compileExtractors (compile : Nat → Deferred → List TExpr → List Row → Compiled) (n : Nat) (d : Deferred)
    (subjects : List TExpr) (cases : List Row) : Compiled :=
  match subjects with
  | [] => .error .internalMatchFailure
  | subject :: subjects => do
    let (num, cases) := findExtractors subject 0 cases
    let c ← extractorLoop subject num n [] cases
    let (dt, d) ← compile (n + c.binds.length) (c.binds ++ markUsed subject d) (subject :: c.subjects ++ subjects) c.cases
    pure (.bind (assigned c.binds d) dt, d.filter fun p => p.1 < n)

/-- `try compile_switch with Extractor -> compile_extractors`. -/
def compileColumn (ctx : MatcherContext) (compile : Nat → Deferred → List TExpr → List Row → Compiled)
    (n : Nat) (d : Deferred) (subjects : List TExpr) (cases : List Row) : Compiled :=
  match compileSwitch ctx compile n d subjects cases with
  | .error .extractor => compileExtractors compile n d subjects cases
  | r => r

/-- The inner `compile`. Locals from `n` on are free; the fuel bounds the number of nested calls. -/
def compileRows (ctx : MatcherContext) : Nat → Nat → Deferred → List TExpr → List Row → Compiled
  | 0, _, _, _, _ => .error .outOfFuel
  | fuel + 1, n, d, subjects, cases =>
    match cases with
    | [] => .ok (.fail, d)
    | r :: cases =>
      if r.patterns.all isWildcardPattern then
        compileLeaf (compileRows ctx fuel n) d subjects r cases
      else
        let cases := expand (r :: cases)
        let (subjects, cases) := selectColumn subjects cases
        let cases := expand cases
        compileColumn ctx (compileRows ctx fuel) n d subjects cases

mutual

/-- A bound on the number of calls a pattern can cause, counting wildcards as nothing. -/
def weight : Pattern → Nat
  | .patAny => 0
  | .patBind _ pat => weight pat
  | .patOr pat1 pat2 => weight pat1 + weight pat2 + 2
  | .patConstructor _ patterns => weightAll patterns + patterns.length
  | .patTuple patterns => weightAll patterns
  | .patExtractor _ pat => weight pat + 1

/-- The same for a row. -/
def weightAll : List Pattern → Nat
  | [] => 1
  | pat :: patterns => (weight pat + 1) * weightAll patterns

end

/-- The weight of a matrix. -/
def rowsWeight (rows : List Row) : Nat := (rows.map fun r => weightAll r.patterns).sum

/-- The fuel that suffices for a matrix: columns of wildcards cost a call too. -/
def fuelFor (subjects : List TExpr) (cases : List Row) : Nat :=
  (rowsWeight cases + 1) * (subjects.length + 1 + rowsWeight cases * rowsWeight cases)

/-- The subjects as the compiler uses them, with the locals of those it evaluates first. -/
def bindSubjects : Nat → List TExpr → List TExpr × List (TVar × TExpr)
  | _, [] => ([], [])
  | n, e :: el =>
    match e with
    | .tConst _ | .tLocal _ => ((e :: (bindSubjects n el).1), (bindSubjects n el).2)
    | _ => (.tLocal n :: (bindSubjects (n + 1) el).1, (.gen n, e) :: (bindSubjects (n + 1) el).2)

/-- `Compile.compile`. The locals below `n` are those of the program. -/
def compile (ctx : MatcherContext) (n : Nat) (subjects : List TExpr)
    (cases : List (Case × Pattern)) : Except MatchError Dt :=
  let (locals, vars) := bindSubjects n subjects
  match cases, locals with
  | [], subject :: _ => .ok (.switch subject [] .fail)
  | _, _ => do
    let rows : List Row := cases.map fun c => ⟨c.1, [], [c.2]⟩
    let (dt, _) ← compileRows ctx (fuelFor locals rows) (n + vars.length) [] locals rows
    pure (if vars.isEmpty then dt else .bind vars dt)

end EvilHaxe.Matcher
