/-
Tokens and syntax trees of the parser: `Ast.token`, `Ast.expr` and the types they are built
from. A syntax node carries no position: no decision of the parser reads one (positions of
tokens, which the parser does compare, are kept in the token stream).
-/
import Mathlib.Data.List.Basic

namespace EvilHaxe.Syntax

/-! ## Tokens -/

inductive Keyword where
  | kwFunction | kwClass | kwVar | kwIf | kwElse | kwWhile | kwDo | kwFor | kwBreak | kwContinue
  | kwReturn | kwExtends | kwImplements | kwImport | kwSwitch | kwCase | kwDefault | kwStatic
  | kwPublic | kwPrivate | kwTry | kwCatch | kwNew | kwThis | kwThrow | kwExtern | kwEnum | kwIn
  | kwInterface | kwUntyped | kwCast | kwOverride | kwTypedef | kwDynamic | kwPackage | kwInline
  | kwUsing | kwNull | kwTrue | kwFalse | kwAbstract | kwMacro | kwFinal | kwOperator | kwOverload
  deriving DecidableEq, Repr

inductive Binop where
  | opAdd | opMult | opDiv | opSub | opAssign | opEq | opNotEq | opGt | opGte | opLt | opLte
  | opAnd | opOr | opXor | opBoolAnd | opBoolOr | opShl | opShr | opUShr | opMod
  | opAssignOp (op : Binop)
  | opInterval | opArrow | opIn | opNullCoal
  deriving DecidableEq, Repr

inductive Unop where
  | increment | decrement | not | neg | negBits | spread
  deriving DecidableEq, Repr

inductive StringLiteralKind where
  | sDoubleQuotes | sSingleQuotes
  deriving DecidableEq, Repr

inductive Constant where
  | int (s : String) (suffix : Option String)
  | float (s : String) (suffix : Option String)
  | string (s : String) (kind : StringLiteralKind)
  | ident (s : String)
  | regexp (r : String) (options : String)
  deriving DecidableEq, Repr

inductive Token where
  | eof
  | const (c : Constant)
  | kwd (k : Keyword)
  | comment (s : String)
  | commentLine (s : String)
  | binop (op : Binop)
  | unop (op : Unop)
  | semicolon | comma | brOpen | brClose | bkOpen | bkClose | pOpen | pClose | dot | dblDot
  | questionDot | arrow
  | intInterval (s : String)
  | sharp (s : String)
  | question | atSign
  | dollar (s : String)
  | spread
  deriving DecidableEq, Repr

/-- `Globals.pos` without its file. -/
structure Pos where
  pmin : Int
  pmax : Int
  deriving DecidableEq, Repr

def nullPos : Pos := ⟨-1, -1⟩

def punion (p p2 : Pos) : Pos := ⟨min p.pmin p2.pmin, max p.pmax p2.pmax⟩

/-! ## Syntax trees -/

inductive UnopFlag where
  | flagPrefix | flagPostfix
  deriving DecidableEq, Repr

inductive WhileFlag where
  | normalWhile | doWhile
  deriving DecidableEq, Repr

inductive QuoteStatus where
  | noQuotes | doubleQuotes
  deriving DecidableEq, Repr

inductive FunctionKind where
  | fkAnonymous
  | fkNamed (name : String) (inl : Bool)
  | fkArrow
  deriving DecidableEq, Repr

inductive DisplayKind where
  | dkCall | dkDot | dkStructure | dkMarked
  | dkPattern (outermost : Bool)
  deriving DecidableEq, Repr

inductive EFieldKind where
  | efNormal | efSafe
  deriving DecidableEq, Repr

inductive Access where
  | aPublic | aPrivate | aStatic | aOverride | aDynamic | aInline | aMacro | aFinal | aExtern
  | aAbstract | aOverload | aEnum
  deriving DecidableEq, Repr

mutual

/-- `Ast.expr_def`. -/
inductive Expr where
  | eConst (c : Constant)
  | eArray (e1 e2 : Expr)
  | eBinop (op : Binop) (e1 e2 : Expr)
  | eField (e : Expr) (f : String) (efk : EFieldKind)
  | eParenthesis (e : Expr)
  | eObjectDecl (fl : List ObjectField)
  | eArrayDecl (el : List Expr)
  | eCall (e : Expr) (el : List Expr)
  | eNew (t : TypePath) (el : List Expr)
  | eUnop (op : Unop) (flag : UnopFlag) (e : Expr)
  | eVars (vl : List EVar)
  | eFunction (kind : FunctionKind) (f : Func)
  | eBlock (el : List Expr)
  | eFor (it e : Expr)
  | eIf (cond e1 : Expr) (e2 : Option Expr)
  | eWhile (cond e : Expr) (flag : WhileFlag)
  | eSwitch (e : Expr) (cases : List SwitchCase) (dflt : Option (Option Expr))
  | eTry (e : Expr) (catches : List Catch)
  | eReturn (e : Option Expr)
  | eBreak
  | eContinue
  | eUntyped (e : Expr)
  | eThrow (e : Expr)
  | eCast (e : Expr) (t : Option TypeHint)
  | eIs (e : Expr) (t : TypeHint)
  | eDisplay (e : Expr) (dk : DisplayKind)
  | eTernary (cond e1 e2 : Expr)
  | eCheckType (e : Expr) (t : TypeHint)
  | eMeta (m : MetadataEntry) (e : Expr)

/-- A field of an object literal. -/
inductive ObjectField where
  | mk (name : String) (quotes : QuoteStatus) (e : Expr)

/-- `Ast.evar`. -/
inductive EVar where
  | mk (name : String) (final static : Bool) (t : Option TypeHint) (e : Option Expr)
      (metas : List MetadataEntry)

/-- A case of a `switch`: patterns, guard, body. -/
inductive SwitchCase where
  | mk (values : List Expr) (guard : Option Expr) (e : Option Expr)

/-- A `catch` of a `try`: variable, type, body. -/
inductive Catch where
  | mk (name : String) (t : Option TypeHint) (e : Expr)

/-- `Ast.metadata_entry`; the name is the text `Meta.to_string` gives. -/
inductive MetadataEntry where
  | mk (name : String) (params : List Expr)

/-- `Ast.func`. -/
inductive Func where
  | mk (params : List TypeParam) (args : List FunArg) (t : Option TypeHint) (e : Option Expr)

/-- An argument of a function: name, optionality, metadata, type, default value. -/
inductive FunArg where
  | mk (name : String) (opt : Bool) (metas : List MetadataEntry) (t : Option TypeHint)
      (value : Option Expr)

/-- `Ast.type_param`. -/
inductive TypeParam where
  | mk (name : String) (params : List TypeParam) (constraints dflt : Option TypeHint)
      (metas : List MetadataEntry)

/-- `Ast.complex_type`. -/
inductive TypeHint where
  | ctPath (p : TypePath)
  | ctFunction (args : List TypeHint) (ret : TypeHint)
  | ctAnonymous (fields : List ClassField)
  | ctParent (t : TypeHint)
  | ctExtend (tl : List TypePath) (fields : List ClassField)
  | ctOptional (t : TypeHint)
  | ctNamed (name : String) (t : TypeHint)
  | ctIntersection (tl : List TypeHint)

/-- `Ast.type_path`. -/
inductive TypePath where
  | mk (pack : List String) (name : String) (params : List TypeParamOrConst) (sub : Option String)

inductive TypeParamOrConst where
  | tpType (t : TypeHint)
  | tpExpr (e : Expr)

/-- `Ast.class_field`, without its documentation text. -/
inductive ClassField where
  | mk (name : String) (metas : List MetadataEntry) (access : List Access) (kind : ClassFieldKind)

inductive ClassFieldKind where
  | fVar (t : Option TypeHint) (e : Option Expr)
  | fFun (f : Func)
  | fProp (get set : String) (t : Option TypeHint) (e : Option Expr)

end

instance : Inhabited Expr := ⟨.eBreak⟩

/-- `Ast.class_flag` as a class expression (`macro class`) can have it. -/
inductive ClassFlag where
  | hInterface
  | hExtends (t : TypePath)
  | hImplements (t : TypePath)

/-- The class of a `macro class` expression. -/
structure ClassDef where
  name : String
  params : List TypeParam
  flags : List ClassFlag
  data : List ClassField

/-! ## Helpers of `Ast` and `Globals` -/

/-- `starts_with s c`. -/
def startsWith (s : String) (c : Char) : Bool := s.toList.head? = some c

/-- The loop of `is_lower_ident`. -/
def isLowerIdent.loop : List Char → Bool
  | [] => true
  | c :: cs =>
    if 'a' ≤ c ∧ c ≤ 'z' then true
    else if c = '_' then isLowerIdent.loop cs
    else false

/-- `is_lower_ident`, which is asked about non-empty names only. -/
def isLowerIdent (i : String) : Bool := isLowerIdent.loop i.toList

/-- `is_postfix`. -/
def isPostfix : Unop → Bool
  | .increment | .decrement | .not => true
  | .neg | .negBits | .spread => false

/-- `is_dollar_ident`. -/
def isDollarIdent : Expr → Bool
  | .eConst (.ident n) => startsWith n '$'
  | _ => false

/-- `mk_type_path`. -/
def mkTypePath (pack : List String) (name : String) (params : List TypeParamOrConst)
    (sub : Option String) : TypePath :=
  .mk pack name params sub

/-- The text of a keyword, `s_keyword`. -/
def sKeyword : Keyword → String
  | .kwFunction => "function" | .kwClass => "class" | .kwVar => "var" | .kwIf => "if"
  | .kwElse => "else" | .kwWhile => "while" | .kwDo => "do" | .kwFor => "for"
  | .kwBreak => "break" | .kwContinue => "continue" | .kwReturn => "return"
  | .kwExtends => "extends" | .kwImplements => "implements" | .kwImport => "import"
  | .kwSwitch => "switch" | .kwCase => "case" | .kwDefault => "default" | .kwStatic => "static"
  | .kwPublic => "public" | .kwPrivate => "private" | .kwTry => "try" | .kwCatch => "catch"
  | .kwNew => "new" | .kwThis => "this" | .kwThrow => "throw" | .kwExtern => "extern"
  | .kwEnum => "enum" | .kwIn => "in" | .kwInterface => "interface" | .kwUntyped => "untyped"
  | .kwCast => "cast" | .kwOverride => "override" | .kwTypedef => "typedef"
  | .kwDynamic => "dynamic" | .kwPackage => "package" | .kwInline => "inline"
  | .kwUsing => "using" | .kwNull => "null" | .kwTrue => "true" | .kwFalse => "false"
  | .kwAbstract => "abstract" | .kwMacro => "macro" | .kwFinal => "final"
  | .kwOperator => "operator" | .kwOverload => "overload"

end EvilHaxe.Syntax
