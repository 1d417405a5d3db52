/-
Properties of all nodes of a syntax tree, also of the types, class fields and metadata in it: a check for each kind of
node, and the trees whose nodes pass.
-/
import EvilHaxe.Syntax.Ast
import EvilHaxe.Evil.ExprRoundTrip

namespace EvilHaxe.Syntax

/-- What is asked of a node of each kind, its children apart. -/
structure Checks where
  expr : Expr → Bool := fun _ => true
  /-- The names of fields, variables, functions, arguments, parameters, packages and accessors. -/
  name : String → Bool := fun _ => true
  entry : MetadataEntry → Bool := fun _ => true
  arg : FunArg → Bool := fun _ => true
  tparam : TypeParam → Bool := fun _ => true
  type : TypeHint → Bool := fun _ => true
  path : TypePath → Bool := fun _ => true

def checkFunctionKind (c : Checks) : FunctionKind → Bool
  | .fkNamed name _ => c.name name
  | .fkAnonymous | .fkArrow => true

mutual

@[simp] def checkExpr (c : Checks) : Expr → Bool
  | .eConst k => c.expr (.eConst k)
  | .eArray e1 e2 => c.expr (.eArray e1 e2) && checkExpr c e1 && checkExpr c e2
  | .eBinop op e1 e2 => c.expr (.eBinop op e1 e2) && checkExpr c e1 && checkExpr c e2
  | .eField e f efk => c.expr (.eField e f efk) && checkExpr c e && c.name f
  | .eParenthesis e => c.expr (.eParenthesis e) && checkExpr c e
  | .eObjectDecl fl => c.expr (.eObjectDecl fl) && checkObjectFields c fl
  | .eArrayDecl el => c.expr (.eArrayDecl el) && checkExprs c el
  | .eCall e el => c.expr (.eCall e el) && checkExpr c e && checkExprs c el
  | .eNew t el => c.expr (.eNew t el) && checkPath c t && checkExprs c el
  | .eUnop op flag e => c.expr (.eUnop op flag e) && checkExpr c e
  | .eVars vl => c.expr (.eVars vl) && checkVars c vl
  | .eFunction kind f => c.expr (.eFunction kind f) && checkFunctionKind c kind && checkFun c f
  | .eBlock el => c.expr (.eBlock el) && checkExprs c el
  | .eFor it e => c.expr (.eFor it e) && checkExpr c it && checkExpr c e
  | .eIf cond e1 e2 => c.expr (.eIf cond e1 e2) && checkExpr c cond && checkExpr c e1 && checkOption c e2
  | .eWhile cond e flag => c.expr (.eWhile cond e flag) && checkExpr c cond && checkExpr c e
  | .eSwitch e cases dflt => c.expr (.eSwitch e cases dflt) && checkExpr c e && checkCases c cases && checkDefault c
    dflt
  | .eTry e catches => c.expr (.eTry e catches) && checkExpr c e && checkCatches c catches
  | .eReturn e => c.expr (.eReturn e) && checkOption c e
  | .eBreak => c.expr .eBreak
  | .eContinue => c.expr .eContinue
  | .eUntyped e => c.expr (.eUntyped e) && checkExpr c e
  | .eThrow e => c.expr (.eThrow e) && checkExpr c e
  | .eCast e t => c.expr (.eCast e t) && checkExpr c e && checkHint c t
  | .eIs e t => c.expr (.eIs e t) && checkExpr c e && checkType c t
  | .eDisplay e dk => c.expr (.eDisplay e dk) && checkExpr c e
  | .eTernary cond e1 e2 => c.expr (.eTernary cond e1 e2) && checkExpr c cond && checkExpr c e1 && checkExpr c e2
  | .eCheckType e t => c.expr (.eCheckType e t) && checkExpr c e && checkType c t
  | .eMeta m e => c.expr (.eMeta m e) && checkEntry c m && checkExpr c e

@[simp] def checkExprs (c : Checks) : List Expr → Bool
  | [] => true
  | e :: el => checkExpr c e && checkExprs c el

@[simp] def checkOption (c : Checks) : Option Expr → Bool
  | none => true
  | some e => checkExpr c e

@[simp] def checkDefault (c : Checks) : Option (Option Expr) → Bool
  | none => true
  | some e => checkOption c e

@[simp] def checkObjectField (c : Checks) : ObjectField → Bool
  | .mk name _ e => c.name name && checkExpr c e

@[simp] def checkObjectFields (c : Checks) : List ObjectField → Bool
  | [] => true
  | f :: fl => checkObjectField c f && checkObjectFields c fl

@[simp] def checkVar (c : Checks) : EVar → Bool
  | .mk name _ _ t e metas => c.name name && checkHint c t && checkOption c e && checkEntries c metas

@[simp] def checkVars (c : Checks) : List EVar → Bool
  | [] => true
  | v :: vl => checkVar c v && checkVars c vl

@[simp] def checkCase (c : Checks) : SwitchCase → Bool
  | .mk values guard e => checkExprs c values && checkOption c guard && checkOption c e

@[simp] def checkCases (c : Checks) : List SwitchCase → Bool
  | [] => true
  | k :: kl => checkCase c k && checkCases c kl

@[simp] def checkCatch (c : Checks) : Catch → Bool
  | .mk name t e => c.name name && checkHint c t && checkExpr c e

@[simp] def checkCatches (c : Checks) : List Catch → Bool
  | [] => true
  | k :: kl => checkCatch c k && checkCatches c kl

@[simp] def checkEntry (c : Checks) : MetadataEntry → Bool
  | .mk name params => c.entry (.mk name params) && checkExprs c params

@[simp] def checkEntries (c : Checks) : List MetadataEntry → Bool
  | [] => true
  | m :: ml => checkEntry c m && checkEntries c ml

@[simp] def checkFun (c : Checks) : Func → Bool
  | .mk params args t e => checkTParams c params && checkArgs c args && checkHint c t && checkOption c e

@[simp] def checkArg (c : Checks) : FunArg → Bool
  | .mk name opt metas t value =>
    c.arg (.mk name opt metas t value) && c.name name && checkEntries c metas && checkHint c t && checkOption c value

@[simp] def checkArgs (c : Checks) : List FunArg → Bool
  | [] => true
  | a :: al => checkArg c a && checkArgs c al

@[simp] def checkTParam (c : Checks) : TypeParam → Bool
  | .mk name params constraints dflt metas =>
    c.tparam (.mk name params constraints dflt metas) && c.name name && checkTParams c params && checkHint c
      constraints &&
      checkHint c dflt && checkEntries c metas

@[simp] def checkTParams (c : Checks) : List TypeParam → Bool
  | [] => true
  | p :: pl => checkTParam c p && checkTParams c pl

@[simp] def checkType (c : Checks) : TypeHint → Bool
  | .ctPath p => c.type (.ctPath p) && checkPath c p
  | .ctFunction args ret => c.type (.ctFunction args ret) && checkTypes c args && checkType c ret
  | .ctAnonymous fields => c.type (.ctAnonymous fields) && checkFields c fields
  | .ctParent t => c.type (.ctParent t) && checkType c t
  | .ctExtend tl fields => c.type (.ctExtend tl fields) && checkPaths c tl && checkFields c fields
  | .ctOptional t => c.type (.ctOptional t) && checkType c t
  | .ctNamed name t => c.type (.ctNamed name t) && c.name name && checkType c t
  | .ctIntersection tl => c.type (.ctIntersection tl) && checkTypes c tl

@[simp] def checkTypes (c : Checks) : List TypeHint → Bool
  | [] => true
  | t :: tl => checkType c t && checkTypes c tl

@[simp] def checkHint (c : Checks) : Option TypeHint → Bool
  | none => true
  | some t => checkType c t

@[simp] def checkPath (c : Checks) : TypePath → Bool
  | .mk pack name params sub =>
    c.path (.mk pack name params sub) && pack.all c.name && c.name name && checkTypeArgs c params && sub.all c.name

@[simp] def checkPaths (c : Checks) : List TypePath → Bool
  | [] => true
  | p :: pl => checkPath c p && checkPaths c pl

@[simp] def checkTypeArg (c : Checks) : TypeParamOrConst → Bool
  | .tpType t => checkType c t
  | .tpExpr e => checkExpr c e

@[simp] def checkTypeArgs (c : Checks) : List TypeParamOrConst → Bool
  | [] => true
  | p :: pl => checkTypeArg c p && checkTypeArgs c pl

@[simp] def checkField (c : Checks) : ClassField → Bool
  | .mk name metas _ kind => c.name name && checkFieldKind c kind && checkEntries c metas

@[simp] def checkFields (c : Checks) : List ClassField → Bool
  | [] => true
  | f :: fl => checkField c f && checkFields c fl

@[simp] def checkFieldKind (c : Checks) : ClassFieldKind → Bool
  | .fVar t e => checkHint c t && checkOption c e
  | .fFun f => checkFun c f
  | .fProp get set t e => c.name get && c.name set && checkHint c t && checkOption c e

end

end EvilHaxe.Syntax

/-! Which syntax trees a macro gets back as it gave them: those without a default type on a type parameter, without a number
suffix that `decode_const` does not know and without a type path that has no name. -/

namespace EvilHaxe.Evil

open EvilHaxe.Syntax

/-- A suffix that `decode_const` knows, no default type, a name. -/
@[simps] def keptChecks : Checks where
  expr
    | .eConst c => suffixOk (.const c)
    | _ => true
  tparam | .mk _ _ _ dflt _ => dflt.isNone
  path | .mk _ name _ _ => name != ""

@[simp] theorem checkFunctionKind_keptChecks (kind : FunctionKind) : checkFunctionKind keptChecks kind = true := by
  cases kind <;> rfl

/-! ## Sequencing -/

@[simp] theorem bind_eq_ok_iff {α β : Type} {r : Except Exc α} {f : α → Except Exc β} {b : β} :
    (r >>= f) = .ok b ↔ ∃ a, r = .ok a ∧ f a = .ok b := by
  cases r with
  | error e => exact ⟨fun h => (nomatch h), fun ⟨_, h, _⟩ => (nomatch h)⟩
  | ok a => exact ⟨fun h => ⟨a, rfl, h⟩, fun ⟨_, h, h'⟩ => by cases h; exact h'⟩

@[simp] theorem pure_eq_ok_iff {α : Type} {a b : α} : (pure a : Except Exc α) = .ok b ↔ a = b :=
  ⟨fun h => Except.ok.inj h, fun h => h ▸ rfl⟩

@[simp] theorem map_eq_ok_iff {α β : Type} {r : Except Exc α} {f : α → β} {b : β} :
    (f <$> r) = .ok b ↔ ∃ a, r = .ok a ∧ f a = b := by
  rw [← bind_pure_comp, bind_eq_ok_iff]
  simp only [pure_eq_ok_iff]

/-! ## Trees that come back -/

mutual

theorem recode_expr : ∀ x : Expr, recodeExpr x = .ok x ↔ checkExpr keptChecks x = true
  | .eConst c => by
    rw [recodeExpr, decodeConst_encodeConst]
    by_cases hs : suffixOk (.const c) = true <;> simp [checkExpr, hs]
  | .eArray e1 e2 => by simp [recodeExpr, checkExpr, recode_expr e1, recode_expr e2]
  | .eBinop op e1 e2 => by simp [recodeExpr, checkExpr, recode_expr e1, recode_expr e2]
  | .eField e f efk => by simp [recodeExpr, checkExpr, recode_expr e]
  | .eParenthesis e => by simp [recodeExpr, checkExpr, recode_expr e]
  | .eObjectDecl fl => by simp [recodeExpr, checkExpr, recode_objectFields fl]
  | .eArrayDecl el => by simp [recodeExpr, checkExpr, recode_exprs el]
  | .eCall e el => by simp [recodeExpr, checkExpr, recode_expr e, recode_exprs el]
  | .eNew t el => by simp [recodeExpr, checkExpr, recode_path t, recode_exprs el]
  | .eUnop op flag e => by simp [recodeExpr, checkExpr, recode_expr e]
  | .eVars vl => by simp [recodeExpr, checkExpr, recode_vars vl]
  | .eFunction kind f => by simp [recodeExpr, checkExpr, recode_fun f]
  | .eBlock el => by simp [recodeExpr, checkExpr, recode_exprs el]
  | .eFor it e => by simp [recodeExpr, checkExpr, recode_expr it, recode_expr e]
  | .eIf cond e1 e2 => by simp [recodeExpr, checkExpr, recode_expr cond, recode_expr e1, recode_option e2, and_assoc]
  | .eWhile cond e flag => by simp [recodeExpr, checkExpr, recode_expr cond, recode_expr e]
  | .eSwitch e cases dflt => by simp [recodeExpr, checkExpr, recode_expr e, recode_cases cases, recode_default dflt,
    and_assoc]
  | .eTry e catches => by simp [recodeExpr, checkExpr, recode_expr e, recode_catches catches]
  | .eReturn e => by simp [recodeExpr, checkExpr, recode_option e]
  | .eBreak => by simp [recodeExpr, checkExpr]
  | .eContinue => by simp [recodeExpr, checkExpr]
  | .eUntyped e => by simp [recodeExpr, checkExpr, recode_expr e]
  | .eThrow e => by simp [recodeExpr, checkExpr, recode_expr e]
  | .eCast e t => by simp [recodeExpr, checkExpr, recode_expr e, recode_hint t]
  | .eIs e t => by simp [recodeExpr, checkExpr, recode_expr e, recode_type t]
  | .eDisplay e dk => by simp [recodeExpr, checkExpr, recode_expr e]
  | .eTernary cond e1 e2 => by simp [recodeExpr, checkExpr, recode_expr cond, recode_expr e1, recode_expr e2, and_assoc]
  | .eCheckType e t => by simp [recodeExpr, checkExpr, recode_expr e, recode_type t]
  | .eMeta m e => by simp [recodeExpr, checkExpr, recode_meta m, recode_expr e]

theorem recode_exprs : ∀ x : List Expr, recodeExprs x = .ok x ↔ checkExprs keptChecks x = true
  | [] => by simp [recodeExprs, checkExprs]
  | x :: xs => by simp [recodeExprs, checkExprs, recode_expr x, recode_exprs xs]

theorem recode_option : ∀ x : Option Expr, recodeOption x = .ok x ↔ checkOption keptChecks x = true
  | none => by simp [recodeOption, checkOption]
  | some e => by simp [recodeOption, checkOption, recode_expr e]

theorem recode_default : ∀ x : Option (Option Expr), recodeDefault x = .ok x ↔ checkDefault keptChecks x = true
  | none => by simp [recodeDefault, checkDefault]
  | some e => by simp [recodeDefault, checkDefault, recode_option e]

theorem recode_objectField : ∀ x : ObjectField, recodeObjectField x = .ok x ↔ checkObjectField keptChecks x = true
  | .mk name quotes e => by simp [recodeObjectField, checkObjectField, recode_expr e]

theorem recode_objectFields : ∀ x : List ObjectField, recodeObjectFields x = .ok x ↔
      checkObjectFields keptChecks x = true
  | [] => by simp [recodeObjectFields, checkObjectFields]
  | x :: xs => by simp [recodeObjectFields, checkObjectFields, recode_objectField x, recode_objectFields xs]

theorem recode_var : ∀ x : EVar, recodeVar x = .ok x ↔ checkVar keptChecks x = true
  | .mk name final static t e metas => by simp [recodeVar, checkVar, recode_hint t, recode_option e,
    recode_metas metas, and_assoc]

theorem recode_vars : ∀ x : List EVar, recodeVars x = .ok x ↔ checkVars keptChecks x = true
  | [] => by simp [recodeVars, checkVars]
  | x :: xs => by simp [recodeVars, checkVars, recode_var x, recode_vars xs]

theorem recode_case : ∀ x : SwitchCase, recodeCase x = .ok x ↔ checkCase keptChecks x = true
  | .mk values guard e => by simp [recodeCase, checkCase, recode_exprs values, recode_option guard, recode_option e,
    and_assoc]

theorem recode_cases : ∀ x : List SwitchCase, recodeCases x = .ok x ↔ checkCases keptChecks x = true
  | [] => by simp [recodeCases, checkCases]
  | x :: xs => by simp [recodeCases, checkCases, recode_case x, recode_cases xs]

theorem recode_catch : ∀ x : Catch, recodeCatch x = .ok x ↔ checkCatch keptChecks x = true
  | .mk name t e => by simp [recodeCatch, checkCatch, recode_hint t, recode_expr e]

theorem recode_catches : ∀ x : List Catch, recodeCatches x = .ok x ↔ checkCatches keptChecks x = true
  | [] => by simp [recodeCatches, checkCatches]
  | x :: xs => by simp [recodeCatches, checkCatches, recode_catch x, recode_catches xs]

theorem recode_meta : ∀ x : MetadataEntry, recodeMeta x = .ok x ↔ checkEntry keptChecks x = true
  | .mk name params => by simp [recodeMeta, checkEntry, recode_exprs params]

theorem recode_metas : ∀ x : List MetadataEntry, recodeMetas x = .ok x ↔ checkEntries keptChecks x = true
  | [] => by simp [recodeMetas, checkEntries]
  | x :: xs => by simp [recodeMetas, checkEntries, recode_meta x, recode_metas xs]

theorem recode_fun : ∀ x : Func, recodeFun x = .ok x ↔ checkFun keptChecks x = true
  | .mk params args t e => by simp [recodeFun, checkFun, recode_params params, recode_args args, recode_hint t,
    recode_option e, and_assoc]

theorem recode_arg : ∀ x : FunArg, recodeArg x = .ok x ↔ checkArg keptChecks x = true
  | .mk name opt metas t value => by simp [recodeArg, checkArg, recode_metas metas, recode_hint t, recode_option value,
    and_assoc]

theorem recode_args : ∀ x : List FunArg, recodeArgs x = .ok x ↔ checkArgs keptChecks x = true
  | [] => by simp [recodeArgs, checkArgs]
  | x :: xs => by simp [recodeArgs, checkArgs, recode_arg x, recode_args xs]

theorem recode_param : ∀ x : TypeParam, recodeParam x = .ok x ↔ checkTParam keptChecks x = true
  | .mk name params constraints dflt metas => by
    cases dflt <;>
      simp [recodeParam, checkTParam, checkHint, recode_params params, recode_hint constraints, recode_metas metas,
        and_assoc]

theorem recode_params : ∀ x : List TypeParam, recodeParams x = .ok x ↔ checkTParams keptChecks x = true
  | [] => by simp [recodeParams, checkTParams]
  | x :: xs => by simp [recodeParams, checkTParams, recode_param x, recode_params xs]

theorem recode_type : ∀ x : TypeHint, recodeType x = .ok x ↔ checkType keptChecks x = true
  | .ctPath p => by simp [recodeType, checkType, recode_path p]
  | .ctFunction args ret => by simp [recodeType, checkType, recode_types args, recode_type ret]
  | .ctAnonymous fields => by simp [recodeType, checkType, recode_fields fields]
  | .ctParent t => by simp [recodeType, checkType, recode_type t]
  | .ctExtend tl fields => by simp [recodeType, checkType, recode_paths tl, recode_fields fields]
  | .ctOptional t => by simp [recodeType, checkType, recode_type t]
  | .ctNamed name t => by simp [recodeType, checkType, recode_type t]
  | .ctIntersection tl => by simp [recodeType, checkType, recode_types tl]

theorem recode_types : ∀ x : List TypeHint, recodeTypes x = .ok x ↔ checkTypes keptChecks x = true
  | [] => by simp [recodeTypes, checkTypes]
  | x :: xs => by simp [recodeTypes, checkTypes, recode_type x, recode_types xs]

theorem recode_hint : ∀ x : Option TypeHint, recodeHint x = .ok x ↔ checkHint keptChecks x = true
  | none => by simp [recodeHint, checkHint]
  | some t => by simp [recodeHint, checkHint, recode_type t]

theorem recode_path : ∀ x : TypePath, recodePath x = .ok x ↔ checkPath keptChecks x = true
  | .mk pack name params sub => by
    by_cases hn : name = ""
    · simp [recodePath, checkPath, hn]
    · cases sub <;> simp [recodePath, checkPath, recode_typeParams params, hn]

theorem recode_paths : ∀ x : List TypePath, recodePaths x = .ok x ↔ checkPaths keptChecks x = true
  | [] => by simp [recodePaths, checkPaths]
  | x :: xs => by simp [recodePaths, checkPaths, recode_path x, recode_paths xs]

theorem recode_typeParam : ∀ x : TypeParamOrConst, recodeTypeParam x = .ok x ↔ checkTypeArg keptChecks x = true
  | .tpType t => by simp [recodeTypeParam, checkTypeArg, recode_type t]
  | .tpExpr e => by simp [recodeTypeParam, checkTypeArg, recode_expr e]

theorem recode_typeParams : ∀ x : List TypeParamOrConst, recodeTypeParams x = .ok x ↔ checkTypeArgs keptChecks x = true
  | [] => by simp [recodeTypeParams, checkTypeArgs]
  | x :: xs => by simp [recodeTypeParams, checkTypeArgs, recode_typeParam x, recode_typeParams xs]

theorem recode_field : ∀ x : ClassField, recodeField x = .ok x ↔ checkField keptChecks x = true
  | .mk name metas access kind => by simp [recodeField, checkField, recode_kind kind, recode_metas metas]

theorem recode_fields : ∀ x : List ClassField, recodeFields x = .ok x ↔ checkFields keptChecks x = true
  | [] => by simp [recodeFields, checkFields]
  | x :: xs => by simp [recodeFields, checkFields, recode_field x, recode_fields xs]

theorem recode_kind : ∀ x : ClassFieldKind, recodeKind x = .ok x ↔ checkFieldKind keptChecks x = true
  | .fVar t e => by simp [recodeKind, checkFieldKind, recode_hint t, recode_option e]
  | .fFun f => by simp [recodeKind, checkFieldKind, recode_fun f]
  | .fProp get set t e => by simp [recodeKind, checkFieldKind, recode_hint t, recode_option e]

end

/-- `function f<T>() {}` with a default type for `T`. -/
def genericFunction (dflt : Option TypeHint) : Expr :=
  .eFunction (.fkNamed "f" false) (.mk [.mk "T" [] none dflt []] [] none (some (.eBlock [])))

end EvilHaxe.Evil
