/-
`exprToPattern.ml`: from the expression of a `case` to a pattern, against the type of its subject.

What the typer does is a parameter, `Typer`, with the types as they are when the pattern is converted. Left out are
positions, display requests, and the errors and warnings that are reported without being raised.
-/
import EvilHaxe.Syntax.Ast
import EvilHaxe.Matcher.Compile

namespace EvilHaxe.Matcher.ExprToPattern

/-! ## Types, as far as patterns look at them -/

/-- `Type.tclass_field`: is it a method, and has it the flag `CfImpl`? -/
structure TClassField (Ty : Type) where
  cfName : String
  cfType : Ty
  isMethod : Bool
  cfImpl : Bool

/-- `Type.tclass`. -/
inductive TClass (Ty : Type) where
  | mk (clPath : List String × String) (clParams : List Nat) (clSuper : Option (TClass Ty × List Ty))
      (clOrderedFields clOrderedStatics : List (TClassField Ty))

/-- `Type.tabstract`, with the identifiers in its `@:forward`. -/
structure TAbstract (Ty : Type) where
  aParams : List Nat
  aImpl : Option (TClass Ty)
  forward : Option (List String)

/-- A type that has been followed. -/
inductive Shape (Ty : Type) where
  | tAnon (fields : List (TClassField Ty))
  | tInst (c : TClass Ty) (tl : List Ty)
  | tAbstract (a : TAbstract Ty) (tl : List Ty)
  /-- The arguments with their optionality, of a constructor of an enum. -/
  | tFunEnum (args : List (Bool × Ty))
  /-- `tuple_type`. -/
  | tTuple (args : List (Bool × Ty))
  | tDynamic
  | other

/-- `Type.texpr`, as far as `check_expr` looks at it. -/
inductive TypedDef where
  | fEnum (en : Nat) (ef : TEnumField)
  /-- A static variable that is never written. -/
  | fStatic (c cf : Nat)
  | fOther
  | tConst (ct : TConstant)
  | tCast (e : TypedDef)
  | tTypeExpr (mt : Nat)
  | tDeprecated (e : TypedDef)
  | other

structure Typed (Ty : Type) where
  eexpr : TypedDef
  etype : Ty

inductive PatternError where
  /-- The exceptions `Exit`, `Bad_pattern` and `Not_found`. -/
  | exit
  | badPattern (msg : String)
  | notFound
  /-- `raise_typing_error`. -/
  | error (msg : String)
  | outOfFuel
  deriving DecidableEq

/-- Variables by name, the last one first. -/
abbrev Locals := List (String × Nat)

/-- The typer. -/
structure Typer (Ty : Type) where
  follow : Ty → Ty
  shape : Ty → Shape Ty
  applyParams : List Nat → List Ty → Ty → Ty
  canAccess : TClass Ty → TClassField Ty → Bool
  getUnderlyingType : TAbstract Ty → List Ty → Ty
  getAbstractFroms : TAbstract Ty → List Ty → List Ty
  shallowEq : Ty → Ty → Bool
  typeExpr : Locals → Syntax.Expr → Option Ty → Except PatternError (Typed Ty)
  /-- `type_field_access` on the module type of a type. -/
  typeModuleField : Ty → String → Except PatternError (Typed Ty)
  /-- What `unify_type_pattern` raises. -/
  generalModuleType : Nat → Except PatternError Unit
  typeConstant : Syntax.Constant → Except PatternError TConstant
  isInterpolated : String → Bool
  convertStored : Syntax.Expr → Except PatternError Syntax.Expr
  sType : Ty → String
  sExpr : Syntax.Expr → String
  /-- A constructor's type has its arguments. -/
  enum_args : ∀ {locals e t typed en ef args}, typeExpr locals e t = .ok typed → typed.eexpr = .fEnum en ef →
    shape (follow typed.etype) = .tFunEnum args → args.length = (Con.conEnum en ef).arity

/-! ## The conversion -/

/-- `pattern_context`, without what changes. -/
structure PatternContext where
  orLocals : Option Locals
  ctxLocals : Locals
  isPostfixMatch : Bool

/-- What changes: the mutable fields of the context, the locals of the typer, and the next variable. -/
structure PatternState where
  currentLocals : Locals
  inReification : Bool
  locals : Locals
  nextVar : Nat

abbrev PatternM := ExceptT PatternError (StateM PatternState)

variable {Ty : Type}

def raiseIf (c : Prop) [Decidable c] (e : PatternError) : PatternM Unit := if c then throw e else pure ()

def addLocal (pctx : PatternContext) (name : String) : PatternM Nat := do
  let isWildcardLocal := name = "_"
  raiseIf (¬ isWildcardLocal ∧ pctx.isPostfixMatch) (.error "Pattern variables are not allowed in .match patterns")
  raiseIf (¬ isWildcardLocal ∧ ((← get).currentLocals.lookup name).isSome)
    (.error ("Variable " ++ name ++ " is bound multiple times"))
  match pctx.orLocals, decide isWildcardLocal with
  | some map, false =>
    match map.lookup name with
    | none => throw (.error ("Variable " ++ name ++ " must appear exactly once in each sub-pattern"))
    | some v => do
      modify fun s => { s with currentLocals := (name, v) :: s.currentLocals }
      pure v
  | _, _ => do
    let v := (← get).nextVar
    modify fun s => { s with
      currentLocals := (name, v) :: s.currentLocals
      locals := (name, v) :: s.locals
      nextVar := v + 1 }
    pure v

/-- `check_expr`: the constructor without sub-patterns. -/
def checkExpr : TypedDef → Except PatternError Con
  | .fEnum en ef => .ok (.conEnum en ef)
  | .fStatic c cf => .ok (.conStatic c cf)
  | .tConst ct => .ok (.conConst ct)
  | .tCast e1 => checkExpr e1
  | .fOther => .error (.badPattern "Only inline or read-only (default, never) fields can be used as a pattern")
  | .tTypeExpr mt => .ok (.conTypeExpr mt)
  | .tDeprecated e1 => checkExpr e1
  | .other => .error .exit

variable (Γ : Typer Ty)

/-- What the unification of a pattern's type raises. -/
def unifyPattern : Con → PatternM Unit
  | .conTypeExpr mt => Γ.generalModuleType mt
  | _ => pure ()

def tryTyping (t : Ty) (e : Syntax.Expr) : PatternM Pattern := do
  let typed ← Γ.typeExpr (← get).locals e (some t)
  let con ← checkExpr typed.eexpr
  unifyPattern Γ con
  pure (.patConstructor con [])

def handleIdent (pctx : PatternContext) (t : Ty) (s : String) : PatternM Pattern :=
  tryCatch (tryTyping Γ t (.eConst (.ident s))) fun
    | .exit | .badPattern _ =>
      tryCatch
        (do
          let typed ← Γ.typeModuleField t s
          let con ← checkExpr typed.eexpr
          pure (.patConstructor con []))
        fun _ => do
          let v ← addLocal pctx s
          pure (.patBind v .patAny)
    | e => throw e

/-- `Expr.field_assoc`. -/
def fieldAssoc (name : String) : List Syntax.ObjectField → Option Syntax.Expr
  | [] => none
  | .mk name' _ e :: fl => if name' = name then some e else fieldAssoc name fl

/-! ### The fields of a type -/

/-- The fields found so far, with their types. -/
abbrev KnownFields (Ty : Type) := List (TClassField Ty × Ty)

def collectField (filter : Option (List String)) (known : KnownFields Ty) (cf : TClassField Ty) (t : Ty) : KnownFields Ty :=
  match filter with
  | some sl => if cf.cfName ∈ sl then (cf, t) :: known.filter (·.1.cfName ≠ cf.cfName) else known
  | none => (cf, t) :: known.filter (·.1.cfName ≠ cf.cfName)

/-- The local `loop` of `collect_fields`. -/
def collectClassFields (filter : Option (List String)) : TClass Ty → List Ty → KnownFields Ty → KnownFields Ty
  | .mk path params clSuper fields statics, tl, known =>
    let known := match clSuper with
      | some (csup, tlsup) => collectClassFields filter csup (tlsup.map (Γ.applyParams params tl)) known
      | none => known
    fields.foldl (fun known cf =>
      if Γ.canAccess (.mk path params clSuper fields statics) cf then
        collectField filter known cf (Γ.applyParams params tl cf.cfType)
      else known) known

def TClass.clOrderedStatics : TClass Ty → List (TClassField Ty)
  | .mk _ _ _ _ statics => statics

def collectFields : Nat → Ty → Option (List String) → KnownFields Ty → Except PatternError (KnownFields Ty)
  | 0, _, _, _ => .error .outOfFuel
  | fuel + 1, t, filter, known =>
    match Γ.shape (Γ.follow t) with
    | .tAnon fields => .ok (fields.foldl (fun known cf => collectField filter known cf cf.cfType) known)
    | .tInst c tl => .ok (collectClassFields Γ filter c tl known)
    | .tAbstract ⟨params, some c, forward⟩ tl => do
      let known ← match forward with
        | some sl =>
          let filter := if sl = [] then filter else some (match filter with
            | some fsl => sl.filter (· ∈ fsl)
            | none => sl)
          collectFields fuel (Γ.getUnderlyingType ⟨params, some c, forward⟩ tl) filter known
        | none => .ok known
      .ok (c.clOrderedStatics.foldl (fun known cf =>
        if cf.cfImpl then collectField filter known cf (Γ.applyParams params tl cf.cfType) else known) known)
    | _ => .error (.error ("Cannot field-match against " ++ Γ.sType t))

/-! ### The cases of `make`, given `make` for the patterns in them -/

section

variable (make : Ty → Syntax.Expr → PatternM Pattern)

/-- The arguments of a constructor. The right ones come first: so does OCaml evaluate them. -/
def callArgs : List Syntax.Expr → List (Bool × Ty) → PatternM (List Pattern)
  | [.eConst (.ident "_")], (_, _) :: [] => pure [.patAny]
  | [.eConst (.ident "_")], (_, _) :: t :: tl => do
    let patterns ← callArgs [.eConst (.ident "_")] (t :: tl)
    pure (.patAny :: patterns)
  | e :: el, (_, t) :: tl => do
    let patterns ← callArgs el tl
    let pat ← make t e
    pure (pat :: patterns)
  | [], (true, _) :: tl => do
    let patterns ← callArgs [] tl
    pure (.patAny :: patterns)
  | [], [] => pure []
  | [], _ => throw (.error "Not enough arguments")
  | _, [] => throw (.error "Too many arguments")

/-- The components of a tuple. -/
def tuplePatterns : List Syntax.Expr → List (Bool × Ty) → PatternM (List Pattern)
  | e :: el, (_, t) :: tl => do
    let pat ← make t e
    let patterns ← tuplePatterns el tl
    pure (pat :: patterns)
  | [], [] => pure []
  | [], _ => throw (.error "Not enough arguments")
  | _ :: _, [] => throw (.error "Too many arguments")

/-- The local `pattern` of `EArrayDecl`; `fail` is what is raised for other types. -/
def arrayPattern (fail : PatternM Pattern) (el : List Syntax.Expr) : Nat → List Ty → Ty → PatternM Pattern
  | 0, _, _ => throw .outOfFuel
  | fuel + 1, seen, t =>
    let array (t2 : Ty) : PatternM Pattern := do
      let patterns ← el.mapM (make t2)
      pure (.patConstructor (.conArray patterns.length) patterns)
    match Γ.shape (Γ.follow t) with
    | .tTuple tl => do
      let patterns ← tuplePatterns make el tl
      pure (.patTuple patterns)
    | .tInst (.mk ([], "Array") _ _ _ _) [t2] => array t2
    | .tDynamic => array (Γ.follow t)
    | .tAbstract a tl =>
      if seen.any (Γ.shallowEq (Γ.follow t)) then fail
      else match Γ.getAbstractFroms a tl with
        | [t2] => arrayPattern fail el fuel (Γ.follow t :: seen) t2
        | _ => fail
    | _ => fail

/-- `is_matchable`. -/
def isMatchable (cf : TClassField Ty) : Bool := !cf.isMethod

/-- The patterns and the names of the known fields, in front of those of the fields before them. -/
def matchFields (fl : List Syntax.ObjectField) : KnownFields Ty → List Pattern × List String →
    PatternM (List Pattern × List String)
  | [], acc => pure acc
  | (cf, t) :: known, (patterns, fields) => do
    let acc ← tryCatch
      (do
        raiseIf ((← get).inReification ∧ cf.cfName = "pos") .notFound
        match fieldAssoc cf.cfName fl with
        | none => throw .notFound
        | some e1 => do
          let pat ← make t e1
          pure (pat :: patterns, cf.cfName :: fields))
      fun
        | .notFound =>
          pure (if isMatchable cf then (.patAny :: patterns, cf.cfName :: fields) else (patterns, fields))
        | e => throw e
    matchFields fl known acc

def checkFieldNames (t : Ty) (fields : List String) : List Syntax.ObjectField → PatternM Unit
  | [] => pure ()
  | .mk s _ _ :: fl => do
    raiseIf (s ∉ fields) (.error (Γ.sType t ++ " has no field " ++ s))
    checkFieldNames t fields fl

/-- `EObjectDecl`. -/
def objectPattern (fuel : Nat) (t : Ty) (fl : List Syntax.ObjectField) : PatternM Pattern := do
  let known ← collectFields Γ fuel t none []
  let (patterns, fields) ← matchFields make fl known ([], [])
  checkFieldNames Γ t fields fl
  pure (.patConstructor (.conFields fields) patterns)

end

/-- `e1 => e2`. -/
def extractorPattern (make : Ty → Syntax.Expr → PatternM Pattern) (pctx : PatternContext) (e1 e2 : Syntax.Expr) :
    PatternM Pattern := do
  let saved := (← get).locals
  modify fun s => { s with locals := pctx.ctxLocals }
  let v ← addLocal pctx "_"
  let typed ← Γ.typeExpr (← get).locals e1 none
  modify fun s => { s with locals := saved }
  let pat ← make typed.etype e2
  pure (.patExtractor v pat)

/-- The local `loop` of `EBinop(OpAssign,e1,e2)`: the name that is bound. -/
def assignedName : Syntax.Expr → Option String
  | .eConst (.ident s) => some s
  | .eParenthesis e1 => assignedName e1
  | .eDisplay e1 _ => assignedName e1
  | _ => none

/-- The comparison operators whose result is matched against `true`. -/
def isComparison : Syntax.Binop → Bool
  | .opEq | .opNotEq | .opLt | .opLte | .opGt | .opGte | .opBoolAnd | .opBoolOr => true
  | _ => false

/-- The variables of the first alternative are in the second one, and belong to both. -/
def mergeLocals (current2 : Locals) : Locals → PatternM Unit
  | [] => pure ()
  | (name, v) :: current1 => do
    raiseIf ((current2.lookup name).isNone ∧ name ≠ "_")
      (.error ("Variable " ++ name ++ " must appear exactly once in each sub-pattern"))
    modify fun s => { s with currentLocals := (name, v) :: s.currentLocals }
    mergeLocals current2 current1

/-- An alternative has a context of its own: its pattern, and its locals. -/
def alternative (p : PatternM Pattern) : PatternM (Pattern × Locals) := fun s =>
  let (r, s') := p { s with currentLocals := [] }
  (r.map fun pat => (pat, s'.currentLocals), { s' with currentLocals := s.currentLocals, inReification := s.inReification })

/-- The local `loop` of `make`, for the pattern `e0`. -/
def loop : Nat → PatternContext → Ty → Syntax.Expr → Syntax.Expr → PatternM Pattern
  | 0, _, _, _, _ => throw .outOfFuel
  | fuel + 1, pctx, t, e0, e =>
    let make (t : Ty) (e : Syntax.Expr) : PatternM Pattern := loop fuel pctx t e e
    let fail : PatternM Pattern := throw (.error ("Unrecognized pattern: " ++ Γ.sExpr e0))
    let const (ct : Syntax.Constant) : PatternM Pattern := do
      let c ← Γ.typeConstant ct
      pure (.patConstructor (.conConst c) [])
    match e with
    | .eParenthesis e1 | .eCast e1 none => loop fuel pctx t e0 e1
    | .eCheckType e1 (.ctPath (.mk ["haxe", "macro"] "Expr" _ _)) => do
      let old := (← get).inReification
      modify fun s => { s with inReification := true }
      let pat ← loop fuel pctx t e0 e1
      modify fun s => { s with inReification := old }
      pure pat
    | .eConst (.ident i) =>
      if i = "false" ∨ i = "true" then const (.ident i)
      else match Γ.shape (Γ.follow t) with
        | .tTuple ta =>
          if i = "_" then pure (.patTuple (ta.map fun _ => .patAny))
          else throw (.error "Cannot bind matched tuple to variable, use _ instead")
        | _ => if i = "_" then pure .patAny else handleIdent Γ pctx t i
    | .eConst (.string value .sSingleQuotes) => do
      raiseIf (Γ.isInterpolated value) (.error "String interpolation is not allowed in case patterns")
      const (.string value .sSingleQuotes)
    | .eConst (.string value kind) => const (.string value kind)
    | .eConst (.int s suffix) => const (.int s suffix)
    | .eConst (.float s suffix) => const (.float s suffix)
    | .eVars [.mk name _ _ none none _] => do
      let v ← addLocal pctx name
      pure (.patBind v .patAny)
    | .eCall e1 el => do
      let typed ← Γ.typeExpr (← get).locals e1 (some t)
      match typed.eexpr, Γ.shape (Γ.follow typed.etype) with
      | .fEnum en ef, .tFunEnum args => do
        let patterns ← callArgs make el args
        pure (.patConstructor (.conEnum en ef) patterns)
      | _, _ => fail
    | .eField _ _ _ =>
      tryCatch (tryTyping Γ t e) fun
        | .exit => fail
        | .badPattern s => throw (.error s)
        | exc => throw exc
    | .eArrayDecl el => arrayPattern Γ make fail el (fuel + 1) [] t
    | .eObjectDecl fl => objectPattern Γ make (fuel + 1) t fl
    | .eBinop .opOr e1 e2 => do
      let (pat1, current1) ← alternative (loop fuel pctx t e1 e1)
      let (pat2, current2) ← alternative (loop fuel { pctx with orLocals := some current1 } t e2 e2)
      mergeLocals current2 current1
      pure (.patOr pat1 pat2)
    | .eBinop .opAssign e1 e2 =>
      match assignedName e1 with
      | some s => do
        let v ← addLocal pctx s
        let pat ← make t e2
        pure (.patBind v pat)
      | none => fail
    | .eBinop .opArrow e1 e2 => extractorPattern Γ make pctx e1 e2
    | .eBinop op e1 e2 =>
      if isComparison op then extractorPattern Γ make pctx (.eBinop op e1 e2) (.eConst (.ident "true"))
      else fail
    | .eDisplay e1 _ => loop fuel pctx t e0 e1
    | .eMeta (.mk ":storedTypedExpr" _) e1 => do
      let e1 ← Γ.convertStored e1
      loop fuel pctx t e0 e1
    | _ => fail

/-- `make`. -/
def make (fuel : Nat) (pctx : PatternContext) (t : Ty) (e : Syntax.Expr) : PatternM Pattern := loop Γ fuel pctx t e e

end EvilHaxe.Matcher.ExprToPattern
