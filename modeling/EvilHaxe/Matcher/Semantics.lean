/-
What patterns and decision trees mean: values are tested and taken apart by the target (a parameter),
a decision tree is evaluated in an environment, and the reference meaning of a list of cases is the
first case with a match whose guard is true.
-/
import EvilHaxe.Matcher.Compile

namespace EvilHaxe.Matcher

/-! ## The target -/

/-- What the generated code does with values: constants, the parts of a value, the test of a
constructor, the test for `null`, the expressions of extractors, and the guards, which see pattern
variables. -/
structure Runtime (V : Type) where
  const : TConstant → V
  enumParameter : TEnumField → Nat → V → V
  field : String → V → V
  index : Nat → V → V
  extract : Nat → V → V
  other : Nat → V
  holds : Con → V → Bool
  isNull : V → Bool
  guard : Nat → (Nat → Option V) → Bool

/-- The values of the generated locals and of the pattern variables. -/
structure Env (V : Type) where
  locals : Nat → V
  user : Nat → Option V

section

variable {V : Type} (R : Runtime V)

/-- The parts of a value that a constructor pattern looks at. -/
def Runtime.parts (v : V) : Con → List V
  | .conEnum _ ⟨i, some args⟩ => args.mapIdx fun k _ => R.enumParameter ⟨i, some args⟩ k v
  | .conEnum _ ⟨_, none⟩ => []
  | .conFields sl => sl.map fun s => R.field s v
  | .conArray n => (List.range n).map fun i => R.index i v
  | .conConst _ | .conTypeExpr _ | .conStatic _ _ => []

/-! ## Decision trees -/

def evalExpr (ρ : Env V) : TExpr → V
  | .tConst c => R.const c
  | .tLocal v => ρ.locals v
  | .tEnumParameter e ef i => R.enumParameter ef i (evalExpr ρ e)
  | .tField e s => R.field s (evalExpr ρ e)
  | .tArray e i => R.index i (evalExpr ρ e)
  | .tExtract ex e => R.extract ex (evalExpr ρ e)
  | .tAssign _ e => evalExpr ρ e
  | .tOther id => R.other id

def Env.set (ρ : Env V) (x : TVar) (v : V) : Env V :=
  match x with
  | .gen n => { ρ with locals := fun m => if m = n then v else ρ.locals m }
  | .user n => { ρ with user := fun m => if m = n then some v else ρ.user m }

/-- What evaluating an expression assigns. -/
def Env.run (ρ : Env V) : TExpr → Env V
  | .tAssign v e => ρ.set (.gen v) (evalExpr R ρ e)
  | _ => ρ

/-- The bindings of a `Bind` node, one after the other. -/
def Env.bind (ρ : Env V) : List (TVar × TExpr) → Env V
  | [] => ρ
  | (x, e) :: bl => ((ρ.run R e).set x (evalExpr R ρ e)).bind bl

mutual

/-- Run a decision tree: the leaf it reaches with the environment there, or `none` for a failure. -/
def evalDt (ρ : Env V) : Dt → Option (Case × Env V)
  | .leaf case => some (case, ρ)
  | .switch e cases dflt => (evalCases (ρ.run R e) (evalExpr R ρ e) cases).getD (evalDt (ρ.run R e) dflt)
  | .bind bl dt => evalDt (ρ.bind R bl) dt
  | .guard e dt1 dt2 => if R.guard e ρ.user then evalDt ρ dt1 else evalDt ρ dt2
  | .guardNull e dt1 dt2 =>
    if R.isNull (evalExpr R ρ e) then evalDt (ρ.run R e) dt1 else evalDt (ρ.run R e) dt2
  | .fail => none

/-- The branch of a switch that the value takes, if one does. -/
def evalCases (ρ : Env V) (v : V) : List SwitchCase → Option (Option (Case × Env V))
  | [] => none
  | .mk con _ dt :: cases => if R.holds con v then some (evalDt ρ dt) else evalCases ρ v cases

end

/-! ## The reference meaning of patterns -/

mutual

/-- The ways a pattern matches a value, each with its bindings. -/
def patMatches : Pattern → V → List (List (Nat × V))
  | .patAny, _ => [[]]
  | .patBind x pat, v => (patMatches pat v).map ((x, v) :: ·)
  | .patOr pat1 pat2, v => patMatches pat1 v ++ patMatches pat2 v
  | .patConstructor con pats, v => if R.holds con v then matchAll pats (R.parts v con) else []
  | .patTuple _, _ => []
  | .patExtractor ex pat, v => patMatches pat (R.extract ex v)

/-- The same for a list of patterns against as many values. -/
def matchAll : List Pattern → List V → List (List (Nat × V))
  | [], [] => [[]]
  | pat :: pats, v :: vs => (patMatches pat v).flatMap fun β => (matchAll pats vs).map (β ++ ·)
  | _, _ => []

end

/-- The ways the pattern of a case matches the values of the subjects. -/
def topMatches : Pattern → List V → List (List (Nat × V))
  | .patTuple pats, vs => matchAll R pats vs
  | .patOr pat1 pat2, vs => topMatches pat1 vs ++ topMatches pat2 vs
  | pat, [v] => patMatches R pat v
  | _, _ => []

/-- The guard of a case, under the bindings of a match. -/
def guardTrue (case : Case) (β : List (Nat × V)) : Bool :=
  match case.caseGuard with
  | none => true
  | some g => R.guard g fun x => β.lookup x

/-- The case has a match whose guard is true. -/
def Accepts (c : Case × Pattern) (vs : List V) : Prop :=
  ∃ β ∈ topMatches R c.2 vs, guardTrue R c.1 β = true

/-- The outcome that the cases, tried in order, call for: the first case that accepts, with the
bindings of a match; `none` when no case accepts. -/
def Selects (cases : List (Case × Pattern)) (vs : List V) : Option (Case × Env V) → Prop
  | none => ∀ c ∈ cases, ¬ Accepts R c vs
  | some (case, ρ) => ∃ pre c post, cases = pre ++ c :: post ∧ c.1 = case ∧
      (∀ c' ∈ pre, ¬ Accepts R c' vs) ∧
      ∃ β ∈ topMatches R c.2 vs, guardTrue R c.1 β = true ∧ ∀ x v, (x, v) ∈ β → ρ.user x = some v

end

/-! ## Well-formed cases -/

mutual

/-- The variables of a pattern. -/
def patVars : Pattern → List Nat
  | .patAny => []
  | .patBind x pat => x :: patVars pat
  | .patOr pat1 _ => patVars pat1
  | .patConstructor _ pats => patsVars pats
  | .patTuple pats => patsVars pats
  | .patExtractor _ pat => patVars pat

def patsVars : List Pattern → List Nat
  | [] => []
  | pat :: pats => patVars pat ++ patsVars pats

end

mutual

/-- The two sides of an or-pattern bind the same variables. -/
def VarsOk : Pattern → Prop
  | .patAny => True
  | .patBind _ pat => VarsOk pat
  | .patOr pat1 pat2 => VarsOk pat1 ∧ VarsOk pat2 ∧ (patVars pat1).Perm (patVars pat2)
  | .patConstructor _ pats => VarsOkAll pats
  | .patTuple pats => VarsOkAll pats
  | .patExtractor _ pat => VarsOk pat

def VarsOkAll : List Pattern → Prop
  | [] => True
  | pat :: pats => VarsOk pat ∧ VarsOkAll pats

end

section

variable {V : Type}

/-- The types of subjects: the constructors that may be matched against a type, the types of the
parts, the values. Equal constructors of a type are the same, different ones share no value (so a
type has no two constants or statics of equal value), and `null` has no constructor. -/
structure Typing (R : Runtime V) (Ty : Type) where
  con : Ty → Con → Prop
  sub : Ty → Con → List Ty
  val : Ty → V → Prop
  sub_length : ∀ {t c}, con t c → (sub t c).length = c.arity
  parts : ∀ {t c v}, con t c → val t v → R.holds c v = true → List.Forall₂ val (sub t c) (R.parts v c)
  equal_eq : ∀ {t c c'}, con t c → con t c' → c.equal c' = true → c = c'
  exclusive : ∀ {t c c' v}, con t c → con t c' → c.equal c' = false → val t v →
    R.holds c v = true → R.holds c' v = false
  null : ∀ {t c v}, con t c → val t v → R.isNull v = true → R.holds c v = false

variable {R : Runtime V} {Ty : Type} (T : Typing R Ty)

mutual

/-- The pattern may be matched against the type; it has no `null` pattern and no extractor. -/
def HasType : Pattern → Ty → Prop
  | .patAny, _ => True
  | .patBind _ pat, t => HasType pat t
  | .patOr pat1 pat2, t => HasType pat1 t ∧ HasType pat2 t
  | .patConstructor c pats, t => T.con t c ∧ c ≠ .conConst .tNull ∧ HasTypes pats (T.sub t c)
  | .patTuple _, _ | .patExtractor _ _, _ => False

def HasTypes : List Pattern → List Ty → Prop
  | [], [] => True
  | pat :: pats, t :: ts => HasType pat t ∧ HasTypes pats ts
  | _, _ => False

end

/-- The pattern of a case may be matched against the types of the subjects. -/
def HasTop : Pattern → List Ty → Prop
  | .patTuple pats, ts => HasTypes T pats ts
  | .patOr pat1 pat2, ts => HasTop pat1 ts ∧ HasTop pat2 ts
  | pat, [t] => HasType T pat t
  | _, _ => False

/-- A case as the typer makes it: typed, each variable bound once on each side of an or-pattern, and
a guard that sees no pattern variables but those of the case. -/
structure CaseOk (ts : List Ty) (c : Case × Pattern) : Prop where
  typed : HasTop T c.2 ts
  vars : VarsOk c.2
  nodup : (patVars c.2).Nodup
  closed : ∀ g, c.1.caseGuard = some g → ∀ σ σ' : Nat → Option V,
    (∀ x ∈ patVars c.2, σ x = σ' x) → R.guard g σ = R.guard g σ'

/-! ## Patterns with `null` and extractors -/

/-- What `null` patterns and extractors need, if they are allowed: `null` patterns are tested by `isNull`, and
the values of extractors have types. -/
structure PatternTyping (R : Runtime V) (Ty : Type) extends Typing R Ty where
  nulls : Prop
  null_test : nulls → ∀ {t v}, val t v → R.holds (.conConst .tNull) v = R.isNull v
  extractors : Prop
  extracted : Ty → Nat → Option Ty
  extracted_allowed : ∀ {t t' ex}, extracted t ex = some t' → extractors
  extracted_val : ∀ {t t' ex v}, extracted t ex = some t' → val t v → val t' (R.extract ex v)

/-- Neither is allowed. -/
def Typing.plain (T : Typing R Ty) : PatternTyping R Ty :=
  { T with
    nulls := False
    null_test := False.elim
    extractors := False
    extracted := fun _ _ => none
    extracted_allowed := nofun
    extracted_val := nofun }

section

variable (T : PatternTyping R Ty)

mutual

/-- The pattern may be matched against the type. -/
def Fits : Pattern → Ty → Prop
  | .patAny, _ => True
  | .patBind _ pat, t => Fits pat t
  | .patOr pat1 pat2, t => Fits pat1 t ∧ Fits pat2 t
  | .patConstructor c pats, t =>
    (c = .conConst .tNull ∧ pats = [] ∧ T.nulls) ∨
      (T.con t c ∧ c ≠ .conConst .tNull ∧ FitsAll pats (T.sub t c))
  | .patTuple _, _ => False
  | .patExtractor ex pat, t => ∃ t', T.extracted t ex = some t' ∧ Fits pat t'

def FitsAll : List Pattern → List Ty → Prop
  | [], [] => True
  | pat :: pats, t :: ts => Fits pat t ∧ FitsAll pats ts
  | _, _ => False

end

/-- The pattern of a case may be matched against the types of the subjects. -/
def FitsTop : Pattern → List Ty → Prop
  | .patTuple pats, ts => FitsAll T pats ts
  | .patOr pat1 pat2, ts => FitsTop pat1 ts ∧ FitsTop pat2 ts
  | pat, [t] => Fits T pat t
  | _, _ => False

/-- `CaseOk` for cases with `null` patterns and extractors. -/
structure CaseFits (ts : List Ty) (c : Case × Pattern) : Prop where
  typed : FitsTop T c.2 ts
  vars : VarsOk c.2
  nodup : (patVars c.2).Nodup
  closed : ∀ g, c.1.caseGuard = some g → ∀ σ σ' : Nat → Option V,
    (∀ x ∈ patVars c.2, σ x = σ' x) → R.guard g σ = R.guard g σ'

end

mutual

theorem fits_plain : ∀ {pat : Pattern} {t : Ty}, HasType T pat t → Fits T.plain pat t
  | .patAny, _, _ => by simp only [Fits]
  | .patBind _ pat, t, h => by
    simp only [HasType] at h
    simp only [Fits]
    exact fits_plain h
  | .patOr _ _, t, h => by
    simp only [HasType] at h
    simp only [Fits]
    exact ⟨fits_plain h.1, fits_plain h.2⟩
  | .patConstructor c pats, t, h => by
    simp only [HasType] at h
    simp only [Fits]
    exact .inr ⟨h.1, h.2.1, fitsAll_plain h.2.2⟩
  | .patTuple _, _, h => by simp [HasType] at h
  | .patExtractor _ _, _, h => by simp [HasType] at h

theorem fitsAll_plain : ∀ {pats : List Pattern} {ts : List Ty}, HasTypes T pats ts → FitsAll T.plain pats ts
  | [], [], _ => by simp only [FitsAll]
  | [], _ :: _, h => by simp [HasTypes] at h
  | _ :: _, [], h => by simp [HasTypes] at h
  | _ :: _, _ :: _, h => by
    simp only [HasTypes] at h
    simp only [FitsAll]
    exact ⟨fits_plain h.1, fitsAll_plain h.2⟩

end

theorem fitsTop_plain {ts : List Ty} : ∀ {pat : Pattern}, HasTop T pat ts → FitsTop T.plain pat ts
  | .patTuple _, h => fitsAll_plain T h
  | .patOr _ _, h => ⟨fitsTop_plain h.1, fitsTop_plain h.2⟩
  | .patAny, h | .patBind _ _, h | .patConstructor _ _, h | .patExtractor _ _, h => by
    rcases ts with _ | ⟨t, _ | _⟩
    · exact h.elim
    · exact fits_plain T h
    · exact h.elim

theorem CaseOk.fits {ts : List Ty} {c : Case × Pattern} (h : CaseOk T ts c) : CaseFits T.plain ts c :=
  ⟨fitsTop_plain T h.typed, h.vars, h.nodup, h.closed⟩

end

end EvilHaxe.Matcher
