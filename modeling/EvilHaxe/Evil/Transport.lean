/-
What a syntax tree becomes on its way to a mod and back: `encode_expr` followed by `decode_expr`, and the
same for types and class fields (`macroApi.ml`). The default types of type parameters are lost, number
suffixes that the typer does not know are refused, and so is a type path without a name.
-/
import EvilHaxe.Evil.Codec

namespace EvilHaxe.Evil

open EvilHaxe.Syntax

mutual

/-- `decode_expr` after `encode_expr`. -/
def recodeExpr : Expr → Except Exc Expr
  | .eConst c => do pure (.eConst (← decodeConst (encodeConst c)))
  | .eArray e1 e2 => do pure (.eArray (← recodeExpr e1) (← recodeExpr e2))
  | .eBinop op e1 e2 => do pure (.eBinop op (← recodeExpr e1) (← recodeExpr e2))
  | .eField e f efk => do pure (.eField (← recodeExpr e) f efk)
  | .eParenthesis e => do pure (.eParenthesis (← recodeExpr e))
  | .eObjectDecl fl => do pure (.eObjectDecl (← recodeObjectFields fl))
  | .eArrayDecl el => do pure (.eArrayDecl (← recodeExprs el))
  | .eCall e el => do pure (.eCall (← recodeExpr e) (← recodeExprs el))
  | .eNew t el => do pure (.eNew (← recodePath t) (← recodeExprs el))
  | .eUnop op flag e => do pure (.eUnop op flag (← recodeExpr e))
  | .eVars vl => do pure (.eVars (← recodeVars vl))
  | .eFunction kind f => do pure (.eFunction kind (← recodeFun f))
  | .eBlock el => do pure (.eBlock (← recodeExprs el))
  | .eFor it e => do pure (.eFor (← recodeExpr it) (← recodeExpr e))
  | .eIf cond e1 e2 => do pure (.eIf (← recodeExpr cond) (← recodeExpr e1) (← recodeOption e2))
  | .eWhile cond e flag => do pure (.eWhile (← recodeExpr cond) (← recodeExpr e) flag)
  | .eSwitch e cases dflt => do
    pure (.eSwitch (← recodeExpr e) (← recodeCases cases) (← recodeDefault dflt))
  | .eTry e catches => do pure (.eTry (← recodeExpr e) (← recodeCatches catches))
  | .eReturn e => do pure (.eReturn (← recodeOption e))
  | .eBreak => pure .eBreak
  | .eContinue => pure .eContinue
  | .eUntyped e => do pure (.eUntyped (← recodeExpr e))
  | .eThrow e => do pure (.eThrow (← recodeExpr e))
  | .eCast e t => do pure (.eCast (← recodeExpr e) (← recodeHint t))
  | .eIs e t => do pure (.eIs (← recodeExpr e) (← recodeType t))
  | .eDisplay e dk => do pure (.eDisplay (← recodeExpr e) dk)
  | .eTernary cond e1 e2 => do
    pure (.eTernary (← recodeExpr cond) (← recodeExpr e1) (← recodeExpr e2))
  | .eCheckType e t => do pure (.eCheckType (← recodeExpr e) (← recodeType t))
  | .eMeta m e => do pure (.eMeta (← recodeMeta m) (← recodeExpr e))

def recodeExprs : List Expr → Except Exc (List Expr)
  | [] => pure []
  | e :: el => do pure ((← recodeExpr e) :: (← recodeExprs el))

def recodeOption : Option Expr → Except Exc (Option Expr)
  | none => pure none
  | some e => do pure (some (← recodeExpr e))

def recodeDefault : Option (Option Expr) → Except Exc (Option (Option Expr))
  | none => pure none
  | some e => do pure (some (← recodeOption e))

def recodeObjectField : ObjectField → Except Exc ObjectField
  | .mk name quotes e => do pure (.mk name quotes (← recodeExpr e))

def recodeObjectFields : List ObjectField → Except Exc (List ObjectField)
  | [] => pure []
  | f :: fl => do pure ((← recodeObjectField f) :: (← recodeObjectFields fl))

def recodeVar : EVar → Except Exc EVar
  | .mk name final static t e metas => do
    pure (.mk name final static (← recodeHint t) (← recodeOption e) (← recodeMetas metas))

def recodeVars : List EVar → Except Exc (List EVar)
  | [] => pure []
  | v :: vl => do pure ((← recodeVar v) :: (← recodeVars vl))

def recodeCase : SwitchCase → Except Exc SwitchCase
  | .mk values guard e => do
    pure (.mk (← recodeExprs values) (← recodeOption guard) (← recodeOption e))

def recodeCases : List SwitchCase → Except Exc (List SwitchCase)
  | [] => pure []
  | c :: cl => do pure ((← recodeCase c) :: (← recodeCases cl))

def recodeCatch : Catch → Except Exc Catch
  | .mk name t e => do pure (.mk name (← recodeHint t) (← recodeExpr e))

def recodeCatches : List Catch → Except Exc (List Catch)
  | [] => pure []
  | c :: cl => do pure ((← recodeCatch c) :: (← recodeCatches cl))

/-- `decode_meta_entry` after `encode_meta_entry`. -/
def recodeMeta : MetadataEntry → Except Exc MetadataEntry
  | .mk name params => do pure (.mk name (← recodeExprs params))

def recodeMetas : List MetadataEntry → Except Exc (List MetadataEntry)
  | [] => pure []
  | m :: ml => do pure ((← recodeMeta m) :: (← recodeMetas ml))

/-- `decode_fun` after `encode_fun`. -/
def recodeFun : Func → Except Exc Func
  | .mk params args t e => do
    pure (.mk (← recodeParams params) (← recodeArgs args) (← recodeHint t) (← recodeOption e))

def recodeArg : FunArg → Except Exc FunArg
  | .mk name opt metas t value => do
    pure (.mk name opt (← recodeMetas metas) (← recodeHint t) (← recodeOption value))

def recodeArgs : List FunArg → Except Exc (List FunArg)
  | [] => pure []
  | a :: al => do pure ((← recodeArg a) :: (← recodeArgs al))

/-- `decode_tparam_decl` after `encode_tparam_decl`, which has no field for the default type. -/
def recodeParam : TypeParam → Except Exc TypeParam
  | .mk name params constraints _ metas => do
    pure (.mk name (← recodeParams params) (← recodeHint constraints) none (← recodeMetas metas))

def recodeParams : List TypeParam → Except Exc (List TypeParam)
  | [] => pure []
  | p :: pl => do pure ((← recodeParam p) :: (← recodeParams pl))

/-- `decode_ctype` after `encode_ctype`. -/
def recodeType : TypeHint → Except Exc TypeHint
  | .ctPath p => do pure (.ctPath (← recodePath p))
  | .ctFunction args ret => do pure (.ctFunction (← recodeTypes args) (← recodeType ret))
  | .ctAnonymous fields => do pure (.ctAnonymous (← recodeFields fields))
  | .ctParent t => do pure (.ctParent (← recodeType t))
  | .ctExtend tl fields => do pure (.ctExtend (← recodePaths tl) (← recodeFields fields))
  | .ctOptional t => do pure (.ctOptional (← recodeType t))
  | .ctNamed name t => do pure (.ctNamed name (← recodeType t))
  | .ctIntersection tl => do pure (.ctIntersection (← recodeTypes tl))

def recodeTypes : List TypeHint → Except Exc (List TypeHint)
  | [] => pure []
  | t :: tl => do pure ((← recodeType t) :: (← recodeTypes tl))

def recodeHint : Option TypeHint → Except Exc (Option TypeHint)
  | none => pure none
  | some t => do pure (some (← recodeType t))

/-- `decode_ast_path` after `encode_ast_path`; `mk_type_path` refuses the empty name. -/
def recodePath : TypePath → Except Exc TypePath
  | .mk pack name params sub => do
    let params ← recodeTypeParams params
    if name = "" then throw (.ocamlFailure "Empty module name is not allowed")
    else pure (.mk pack name params sub)

def recodePaths : List TypePath → Except Exc (List TypePath)
  | [] => pure []
  | p :: pl => do pure ((← recodePath p) :: (← recodePaths pl))

def recodeTypeParam : TypeParamOrConst → Except Exc TypeParamOrConst
  | .tpType t => do pure (.tpType (← recodeType t))
  | .tpExpr e => do pure (.tpExpr (← recodeExpr e))

def recodeTypeParams : List TypeParamOrConst → Except Exc (List TypeParamOrConst)
  | [] => pure []
  | p :: pl => do pure ((← recodeTypeParam p) :: (← recodeTypeParams pl))

/-- `decode_field` after `encode_field`. -/
def recodeField : ClassField → Except Exc ClassField
  | .mk name metas access kind => do
    let kind ← recodeKind kind
    pure (.mk name (← recodeMetas metas) access kind)

def recodeFields : List ClassField → Except Exc (List ClassField)
  | [] => pure []
  | f :: fl => do pure ((← recodeField f) :: (← recodeFields fl))

/-- `decode_class_field_kind` after its encoding. -/
def recodeKind : ClassFieldKind → Except Exc ClassFieldKind
  | .fVar t e => do pure (.fVar (← recodeHint t) (← recodeOption e))
  | .fFun f => do pure (.fFun (← recodeFun f))
  | .fProp get set t e => do pure (.fProp get set (← recodeHint t) (← recodeOption e))

end

end EvilHaxe.Evil
