/-
Trees without the metadata of one name: it is taken off everywhere in a tree, and the expressions it stands before stay.
-/
import EvilHaxe.Syntax.Ast

namespace EvilHaxe.Syntax

variable (n : String)

mutual

def dropExpr : Expr → Expr
  | .eConst c => .eConst c
  | .eArray e1 e2 => .eArray (dropExpr e1) (dropExpr e2)
  | .eBinop op e1 e2 => .eBinop op (dropExpr e1) (dropExpr e2)
  | .eField e f efk => .eField (dropExpr e) f efk
  | .eParenthesis e => .eParenthesis (dropExpr e)
  | .eObjectDecl fl => .eObjectDecl (dropObjectFields fl)
  | .eArrayDecl el => .eArrayDecl (dropExprs el)
  | .eCall e el => .eCall (dropExpr e) (dropExprs el)
  | .eNew t el => .eNew (dropPath t) (dropExprs el)
  | .eUnop op flag e => .eUnop op flag (dropExpr e)
  | .eVars vl => .eVars (dropVars vl)
  | .eFunction kind f => .eFunction kind (dropFun f)
  | .eBlock el => .eBlock (dropExprs el)
  | .eFor it e => .eFor (dropExpr it) (dropExpr e)
  | .eIf cond e1 e2 => .eIf (dropExpr cond) (dropExpr e1) (dropOption e2)
  | .eWhile cond e flag => .eWhile (dropExpr cond) (dropExpr e) flag
  | .eSwitch e cases dflt => .eSwitch (dropExpr e) (dropCases cases) (dropDefault dflt)
  | .eTry e catches => .eTry (dropExpr e) (dropCatches catches)
  | .eReturn e => .eReturn (dropOption e)
  | .eBreak => .eBreak
  | .eContinue => .eContinue
  | .eUntyped e => .eUntyped (dropExpr e)
  | .eThrow e => .eThrow (dropExpr e)
  | .eCast e t => .eCast (dropExpr e) (dropHint t)
  | .eIs e t => .eIs (dropExpr e) (dropType t)
  | .eDisplay e dk => .eDisplay (dropExpr e) dk
  | .eTernary cond e1 e2 => .eTernary (dropExpr cond) (dropExpr e1) (dropExpr e2)
  | .eCheckType e t => .eCheckType (dropExpr e) (dropType t)
  | .eMeta (.mk name params) e => if name = n then dropExpr e else .eMeta (.mk name (dropExprs params)) (dropExpr e)

def dropExprs : List Expr → List Expr
  | [] => []
  | e :: el => dropExpr e :: dropExprs el

def dropOption : Option Expr → Option Expr
  | none => none
  | some e => some (dropExpr e)

def dropDefault : Option (Option Expr) → Option (Option Expr)
  | none => none
  | some e => some (dropOption e)

def dropObjectField : ObjectField → ObjectField
  | .mk name quotes e => .mk name quotes (dropExpr e)

def dropObjectFields : List ObjectField → List ObjectField
  | [] => []
  | f :: fl => dropObjectField f :: dropObjectFields fl

def dropVar : EVar → EVar
  | .mk name final static t e metas => .mk name final static (dropHint t) (dropOption e) (dropMetas metas)

def dropVars : List EVar → List EVar
  | [] => []
  | v :: vl => dropVar v :: dropVars vl

def dropCase : SwitchCase → SwitchCase
  | .mk values guard e => .mk (dropExprs values) (dropOption guard) (dropOption e)

def dropCases : List SwitchCase → List SwitchCase
  | [] => []
  | c :: cl => dropCase c :: dropCases cl

def dropCatch : Catch → Catch
  | .mk name t e => .mk name (dropHint t) (dropExpr e)

def dropCatches : List Catch → List Catch
  | [] => []
  | c :: cl => dropCatch c :: dropCatches cl

/-- The metadata of a variable, an argument or a field. -/
def dropMetas : List MetadataEntry → List MetadataEntry
  | [] => []
  | .mk name params :: metas => if name = n then dropMetas metas else .mk name (dropExprs params) :: dropMetas metas

def dropFun : Func → Func
  | .mk params args t e => .mk (dropParams params) (dropArgs args) (dropHint t) (dropOption e)

def dropArg : FunArg → FunArg
  | .mk name opt metas t value => .mk name opt (dropMetas metas) (dropHint t) (dropOption value)

def dropArgs : List FunArg → List FunArg
  | [] => []
  | a :: al => dropArg a :: dropArgs al

def dropParam : TypeParam → TypeParam
  | .mk name params constraints dflt metas =>
    .mk name (dropParams params) (dropHint constraints) (dropHint dflt) (dropMetas metas)

def dropParams : List TypeParam → List TypeParam
  | [] => []
  | p :: pl => dropParam p :: dropParams pl

def dropType : TypeHint → TypeHint
  | .ctPath p => .ctPath (dropPath p)
  | .ctFunction args ret => .ctFunction (dropTypes args) (dropType ret)
  | .ctAnonymous fields => .ctAnonymous (dropFields fields)
  | .ctParent t => .ctParent (dropType t)
  | .ctExtend tl fields => .ctExtend (dropPaths tl) (dropFields fields)
  | .ctOptional t => .ctOptional (dropType t)
  | .ctNamed name t => .ctNamed name (dropType t)
  | .ctIntersection tl => .ctIntersection (dropTypes tl)

def dropTypes : List TypeHint → List TypeHint
  | [] => []
  | t :: tl => dropType t :: dropTypes tl

def dropHint : Option TypeHint → Option TypeHint
  | none => none
  | some t => some (dropType t)

def dropPath : TypePath → TypePath
  | .mk pack name params sub => .mk pack name (dropTypeParams params) sub

def dropPaths : List TypePath → List TypePath
  | [] => []
  | p :: pl => dropPath p :: dropPaths pl

def dropTypeParam : TypeParamOrConst → TypeParamOrConst
  | .tpType t => .tpType (dropType t)
  | .tpExpr e => .tpExpr (dropExpr e)

def dropTypeParams : List TypeParamOrConst → List TypeParamOrConst
  | [] => []
  | p :: pl => dropTypeParam p :: dropTypeParams pl

def dropField : ClassField → ClassField
  | .mk name metas access kind => .mk name (dropMetas metas) access (dropKind kind)

def dropFields : List ClassField → List ClassField
  | [] => []
  | f :: fl => dropField f :: dropFields fl

def dropKind : ClassFieldKind → ClassFieldKind
  | .fVar t e => .fVar (dropHint t) (dropOption e)
  | .fFun f => .fFun (dropFun f)
  | .fProp get set t e => .fProp get set (dropHint t) (dropOption e)

end

variable {n}

theorem dropExprs_eq_map (el : List Expr) : dropExprs n el = el.map (dropExpr n) := by
  induction el with
  | nil => rfl
  | cons e el ih => rw [dropExprs, ih, List.map_cons]

theorem dropExpr_call (e : Expr) (el : List Expr) : dropExpr n (.eCall e el) = .eCall (dropExpr n e) (el.map (dropExpr n)) := by
  rw [dropExpr, dropExprs_eq_map]

theorem dropExpr_meta_self (params : List Expr) (e : Expr) : dropExpr n (.eMeta (.mk n params) e) = dropExpr n e := by
  rw [dropExpr, if_pos rfl]

theorem dropExpr_meta_ne {name : String} (h : name ≠ n) (params : List Expr) (e : Expr) :
    dropExpr n (.eMeta (.mk name params) e) = .eMeta (.mk name (params.map (dropExpr n))) (dropExpr n e) := by
  rw [dropExpr, if_neg h, dropExprs_eq_map]

end EvilHaxe.Syntax
