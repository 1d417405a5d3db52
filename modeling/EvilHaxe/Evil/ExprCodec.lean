/-
`encode_expr` and `decode_expr` of `macroApi.ml`: syntax trees as values of the macro interpreter and back. The encoder
follows the tree. The decoder follows a value: a decoder of one level uses the decoders of the level below, and there
are as many levels as the value has nodes.
-/
import EvilHaxe.Evil.Codec

namespace EvilHaxe.Evil

open EvilHaxe.Syntax

/-! ## Encoding -/

def encodeAccess (a : Access) : Value :=
  .vEnumValue .iAccess (match a with
    | .aPublic => 0 | .aPrivate => 1 | .aStatic => 2 | .aOverride => 3 | .aDynamic => 4 | .aInline => 5
    | .aMacro => 6 | .aFinal => 7 | .aExtern => 8 | .aAbstract => 9 | .aOverload => 10 | .aEnum => 11) []

def encodeDisplayKind : DisplayKind → Value
  | .dkCall => .vEnumValue .iDisplayKind 0 []
  | .dkDot => .vEnumValue .iDisplayKind 1 []
  | .dkStructure => .vEnumValue .iDisplayKind 2 []
  | .dkMarked => .vEnumValue .iDisplayKind 3 []
  | .dkPattern outermost => .vEnumValue .iDisplayKind 4 [.vBool outermost]

def encodeEfieldKind (efk : EFieldKind) : Value :=
  .vEnumValue .iEFieldKind (match efk with | .efNormal => 0 | .efSafe => 1) []

def encodeQuotes (qs : QuoteStatus) : Value :=
  .vEnumValue .iQuoteStatus (match qs with | .noQuotes => 0 | .doubleQuotes => 1) []

def encodeFunctionKind : FunctionKind → Value
  | .fkAnonymous => .vEnumValue .iFunctionKind 0 []
  | .fkNamed name inl => .vEnumValue .iFunctionKind 1 [.vString name, .vBool inl]
  | .fkArrow => .vEnumValue .iFunctionKind 2 []

def exprObject (tag : Nat) (pl : List Value) : Value :=
  .vObject [("pos", .vPos), ("expr", .vEnumValue .iExpr tag pl)]

mutual

/-- `encode_expr`. -/
def encodeExpr : Expr → Value
  | .eConst c => exprObject 0 [encodeConst c]
  | .eArray e1 e2 => exprObject 1 [encodeExpr e1, encodeExpr e2]
  | .eBinop op e1 e2 => exprObject 2 [encodeBinop op, encodeExpr e1, encodeExpr e2]
  | .eField e f efk => exprObject 3 [encodeExpr e, .vString f, encodeEfieldKind efk]
  | .eParenthesis e => exprObject 4 [encodeExpr e]
  | .eObjectDecl fl => exprObject 5 [.vArray (encodeObjectFields fl)]
  | .eArrayDecl el => exprObject 6 [.vArray (encodeExprs el)]
  | .eCall e el => exprObject 7 [encodeExpr e, .vArray (encodeExprs el)]
  | .eNew p el => exprObject 8 [encodeAstPath p, .vArray (encodeExprs el)]
  | .eUnop op flag e =>
    exprObject 9 [encodeUnop op, .vBool (match flag with | .flagPrefix => false | .flagPostfix => true), encodeExpr e]
  | .eVars vl => exprObject 10 [.vArray (encodeVars vl)]
  | .eFunction kind f => exprObject 11 [encodeFunctionKind kind, encodeFun f]
  | .eBlock el => exprObject 12 [.vArray (encodeExprs el)]
  | .eFor e eloop => exprObject 13 [encodeExpr e, encodeExpr eloop]
  | .eIf econd e eelse => exprObject 14 [encodeExpr econd, encodeExpr e, encodeOptExpr eelse]
  | .eWhile econd e flag =>
    exprObject 15 [encodeExpr econd, encodeExpr e, .vBool (match flag with | .normalWhile => true | .doWhile => false)]
  | .eSwitch e cases eopt => exprObject 16 [encodeExpr e, .vArray (encodeCases cases), encodeDefault eopt]
  | .eTry e catches => exprObject 17 [encodeExpr e, .vArray (encodeCatches catches)]
  | .eReturn eo => exprObject 18 [encodeOptExpr eo]
  | .eBreak => exprObject 19 []
  | .eContinue => exprObject 20 []
  | .eUntyped e => exprObject 21 [encodeExpr e]
  | .eThrow e => exprObject 22 [encodeExpr e]
  | .eCast e t => exprObject 23 [encodeExpr e, encodeOptCType t]
  | .eDisplay e dk => exprObject 24 [encodeExpr e, encodeDisplayKind dk]
  | .eTernary econd e1 e2 => exprObject 25 [encodeExpr econd, encodeExpr e1, encodeExpr e2]
  | .eCheckType e t => exprObject 26 [encodeExpr e, encodeCType t]
  | .eMeta m e => exprObject 27 [encodeMetaEntry m, encodeExpr e]
  | .eIs e t => exprObject 28 [encodeExpr e, encodeCType t]

def encodeExprs : List Expr → List Value
  | [] => []
  | e :: el => encodeExpr e :: encodeExprs el

def encodeOptExpr : Option Expr → Value
  | none => .vNull
  | some e => encodeExpr e

/-- `null (fun (e,_) -> encode_null_expr e)`. -/
def encodeDefault : Option (Option Expr) → Value
  | none => .vNull
  | some none => .vObject [("pos", .vNull), ("expr", .vNull)]
  | some (some e) => encodeExpr e

def encodeObjectField : ObjectField → Value
  | .mk f qs e => .vObject [("field", .vString f), ("name_pos", .vPos), ("quotes", encodeQuotes qs), ("expr",
    encodeExpr e)]

def encodeObjectFields : List ObjectField → List Value
  | [] => []
  | f :: fl => encodeObjectField f :: encodeObjectFields fl

def encodeVar : EVar → Value
  | .mk name final static t e metas =>
    .vObject [("name", .vString name), ("namePos", .vPos), ("isFinal", .vBool final), ("isStatic", .vBool static),
      ("type", encodeOptCType t), ("expr", encodeOptExpr e), ("meta", .vArray (encodeMetas metas))]

def encodeVars : List EVar → List Value
  | [] => []
  | v :: vl => encodeVar v :: encodeVars vl

def encodeCase : SwitchCase → Value
  | .mk values guard e =>
    .vObject [("values", .vArray (encodeExprs values)), ("guard", encodeOptExpr guard), ("expr", encodeOptExpr e),
      ("pos", .vPos)]

def encodeCases : List SwitchCase → List Value
  | [] => []
  | c :: cl => encodeCase c :: encodeCases cl

def encodeCatch : Catch → Value
  | .mk name t e =>
    .vObject [("name", .vString name), ("name_pos", .vPos), ("type", encodeOptCType t), ("expr", encodeExpr e), ("pos",
      .vPos)]

def encodeCatches : List Catch → List Value
  | [] => []
  | c :: cl => encodeCatch c :: encodeCatches cl

def encodeMetaEntry : MetadataEntry → Value
  | .mk name params => .vObject [("name", .vString name), ("params", .vArray (encodeExprs params)), ("pos", .vPos)]

/-- The elements of `encode_meta_content`. -/
def encodeMetas : List MetadataEntry → List Value
  | [] => []
  | m :: ml => encodeMetaEntry m :: encodeMetas ml

def encodeFun : Func → Value
  | .mk params args t e =>
    .vObject [("params", .vArray (encodeTParamDecls params)), ("args", .vArray (encodeArgs args)),
      ("ret", encodeOptCType t), ("expr", encodeOptExpr e)]

def encodeArg : FunArg → Value
  | .mk name opt metas t value =>
    .vObject [("name", .vString name), ("name_pos", .vPos), ("opt", .vBool opt), ("meta", .vArray (encodeMetas metas)),
      ("type", encodeOptCType t), ("value", encodeOptExpr value)]

def encodeArgs : List FunArg → List Value
  | [] => []
  | a :: al => encodeArg a :: encodeArgs al

/-- `encode_tparam_decl`. It has no field for the default type. -/
def encodeTParamDecl : TypeParam → Value
  | .mk name params constraints _ metas =>
    .vObject [("name", .vString name), ("name_pos", .vPos), ("params", .vArray (encodeTParamDecls params)),
      ("constraints", encodeConstraints constraints), ("meta", .vArray (encodeMetas metas))]

def encodeTParamDecls : List TypeParam → List Value
  | [] => []
  | p :: pl => encodeTParamDecl p :: encodeTParamDecls pl

def encodeConstraints : Option TypeHint → Value
  | none => .vArray []
  | some th => .vArray [encodeCType th]

def encodeCType : TypeHint → Value
  | .ctPath p => .vEnumValue .iCType 0 [encodeAstPath p]
  | .ctFunction pl r => .vEnumValue .iCType 1 [.vArray (encodeCTypes pl), encodeCType r]
  | .ctAnonymous fl => .vEnumValue .iCType 2 [.vArray (encodeFields fl)]
  | .ctParent t => .vEnumValue .iCType 3 [encodeCType t]
  | .ctExtend tl fields => .vEnumValue .iCType 4 [.vArray (encodeAstPaths tl), .vArray (encodeFields fields)]
  | .ctOptional t => .vEnumValue .iCType 5 [encodeCType t]
  | .ctNamed n t => .vEnumValue .iCType 6 [.vString n, encodeCType t]
  | .ctIntersection tl => .vEnumValue .iCType 7 [.vArray (encodeCTypes tl)]

def encodeCTypes : List TypeHint → List Value
  | [] => []
  | t :: tl => encodeCType t :: encodeCTypes tl

def encodeOptCType : Option TypeHint → Value
  | none => .vNull
  | some t => encodeCType t

def encodeAstPath : TypePath → Value
  | .mk pack name params sub =>
    let fields := [("pack", .vArray (pack.map .vString)), ("name", .vString name), ("params",
      .vArray (encodeTParams params)),
      ("pos", .vPos)]
    .vObject (match sub with
      | none => fields
      | some s => ("sub", .vString s) :: fields)

def encodeAstPaths : List TypePath → List Value
  | [] => []
  | p :: pl => encodeAstPath p :: encodeAstPaths pl

def encodeTParam : TypeParamOrConst → Value
  | .tpType t => .vEnumValue .iTParam 0 [encodeCType t]
  | .tpExpr e => .vEnumValue .iTParam 1 [encodeExpr e]

def encodeTParams : List TypeParamOrConst → List Value
  | [] => []
  | p :: pl => encodeTParam p :: encodeTParams pl

def encodeField : ClassField → Value
  | .mk name metas access kind =>
    .vObject [("name", .vString name), ("name_pos", .vPos), ("pos", .vPos), ("kind", encodeFieldKind kind),
      ("meta", .vArray (encodeMetas metas)), ("access", .vArray (access.map encodeAccess))]

def encodeFields : List ClassField → List Value
  | [] => []
  | f :: fl => encodeField f :: encodeFields fl

def encodeFieldKind : ClassFieldKind → Value
  | .fVar t e => .vEnumValue .iField 0 [encodeOptCType t, encodeOptExpr e]
  | .fFun f => .vEnumValue .iField 1 [encodeFun f]
  | .fProp get set t e => .vEnumValue .iField 2 [.vString get, .vString set, encodeOptCType t, encodeOptExpr e]

end

/-! ## Decoding -/

/-- `field` on an object; a field that is not there is null. -/
def field (v : Value) (f : String) : Value :=
  match v with
  | .vObject fields => (fields.lookup f).getD .vNull
  | _ => .vNull

def decodePos : Value → Except Exc Unit
  | .vPos => .ok ()
  | _ => .error .invalidExpr

def decodeBool : Value → Except Exc Bool
  | .vBool b => .ok b
  | _ => .error (.unexpectedValue "bool")

def decodeArray : Value → Except Exc (List Value)
  | .vArray vl => .ok vl
  | _ => .error (.unexpectedValue "array")

/-- `opt`. -/
def opt {α : Type} (f : Value → Except Exc α) : Value → Except Exc (Option α)
  | .vNull => pure none
  | v => do pure (some (← f v))

def decodeOptBool : Value → Except Exc Bool
  | .vNull => pure false
  | v => decodeBool v

def decodeOptArray {α : Type} (f : Value → Except Exc α) : Value → Except Exc (List α)
  | .vNull => pure []
  | v => do (← decodeArray v).mapM f

def decodeAccess (v : Value) : Except Exc Access := do
  match ← decodeEnum v with
  | (0, _) => return .aPublic
  | (1, _) => return .aPrivate
  | (2, _) => return .aStatic
  | (3, _) => return .aOverride
  | (4, _) => return .aDynamic
  | (5, _) => return .aInline
  | (6, _) => return .aMacro
  | (7, _) => return .aFinal
  | (8, _) => return .aExtern
  | (9, _) => return .aAbstract
  | (10, _) => return .aOverload
  | (11, _) => return .aEnum
  | _ => throw .invalidExpr

def decodeDisplayKind (v : Value) : Except Exc DisplayKind := do
  match ← decodeEnum v with
  | (0, []) => return .dkCall
  | (1, []) => return .dkDot
  | (2, []) => return .dkStructure
  | (3, []) => return .dkMarked
  | (4, [outermost]) => return .dkPattern (← decodeBool outermost)
  | _ => throw .invalidExpr

def decodeEfieldKind : Value → Except Exc EFieldKind
  | .vNull => return .efNormal
  | efk => do
    match ← decodeEnum efk with
    | (0, []) => return .efNormal
    | (1, []) => return .efSafe
    | _ => throw .invalidExpr

def decodeQuotes : Value → Except Exc QuoteStatus
  | .vNull => return .noQuotes
  | vquotes => do
    match ← decodeEnum vquotes with
    | (0, []) => return .noQuotes
    | (1, []) => return .doubleQuotes
    | _ => throw .invalidExpr

def decodeFunctionKind : Value → Except Exc FunctionKind
  | .vNull => return .fkAnonymous
  | kind => do
    match ← decodeEnum kind with
    | (0, []) => return .fkAnonymous
    | (1, [name, inl]) => return .fkNamed (← decodeString name) (← decodeOptBool inl)
    | (2, []) => return .fkArrow
    | _ => throw .invalidExpr

/-- The decoders that the others call again. -/
structure Decoders where
  expr : Value → Except Exc Expr
  ctype : Value → Except Exc TypeHint
  tparamDecl : Value → Except Exc TypeParam

section

variable (d : Decoders)

def decodeTParam (v : Value) : Except Exc TypeParamOrConst := do
  match ← decodeEnum v with
  | (0, [t]) => return .tpType (← d.ctype t)
  | (1, [e]) => return .tpExpr (← d.expr e)
  | _ => throw .invalidExpr

/-- `decode_ast_path`, with the check of `mk_type_path`. -/
def decodeAstPath (t : Value) : Except Exc TypePath := do
  let pack ← (← decodeArray (field t "pack")).mapM decodeString
  let name ← decodeString (field t "name")
  let params ← decodeOptArray (decodeTParam d) (field t "params")
  let sub ← opt decodeString (field t "sub")
  if name = "" then throw (.ocamlFailure "Empty module name is not allowed")
  else pure (mkTypePath pack name params sub)

def decodeMetaEntry (v : Value) : Except Exc MetadataEntry := do
  let name ← decodeString (field v "name")
  let params ← decodeOptArray d.expr (field v "params")
  decodePos (field v "pos")
  pure (.mk name params)

def decodeMetaContent (v : Value) : Except Exc (List MetadataEntry) :=
  decodeOptArray (decodeMetaEntry d) v

def decodeTParams (v : Value) : Except Exc (List TypeParam) :=
  decodeOptArray d.tparamDecl v

def decodeConstraints : Value → Except Exc (Option TypeHint)
  | .vNull => pure none
  | vconstraints => do
    match ← decodeArray vconstraints with
    | [] => pure none
    | [t] => pure (some (← d.ctype t))
    | tl => pure (some (.ctIntersection (← tl.mapM d.ctype)))

def decodeTParamDecl (v : Value) : Except Exc TypeParam := do
  let name ← decodeString (field v "name")
  let params ← decodeTParams d (field v "params")
  let constraints ← decodeConstraints d (field v "constraints")
  let dflt ← opt d.ctype (field v "defaultType")
  let metas ← decodeMetaContent d (field v "meta")
  pure (.mk name params constraints dflt metas)

def decodeArg (o : Value) : Except Exc FunArg := do
  let name ← decodeString (field o "name")
  let isOpt ← decodeOptBool (field o "opt")
  let metas ← decodeMetaContent d (field o "meta")
  let t ← opt d.ctype (field o "type")
  let value ← opt d.expr (field o "value")
  pure (.mk name isOpt metas t value)

def decodeFun (v : Value) : Except Exc Func := do
  let params ← decodeTParams d (field v "params")
  let args ← (← decodeArray (field v "args")).mapM (decodeArg d)
  let t ← opt d.ctype (field v "ret")
  let e ← opt d.expr (field v "expr")
  pure (.mk params args t e)

def decodeClassFieldKind (v : Value) : Except Exc ClassFieldKind := do
  match ← decodeEnum v with
  | (0, [t, e]) => return .fVar (← opt d.ctype t) (← opt d.expr e)
  | (1, [f]) => return .fFun (← decodeFun d f)
  | (2, [get, set, t, e]) =>
    return .fProp (← decodeString get) (← decodeString set) (← opt d.ctype t) (← opt d.expr e)
  | _ => throw .invalidExpr

def decodeField (v : Value) : Except Exc ClassField := do
  let kind ← decodeClassFieldKind d (field v "kind")
  decodePos (field v "pos")
  let name ← decodeString (field v "name")
  let metas ← decodeMetaContent d (field v "meta")
  let access ← decodeOptArray decodeAccess (field v "access")
  pure (.mk name metas access kind)

def decodeCType (t : Value) : Except Exc TypeHint := do
  match ← decodeEnum t with
  | (0, [p]) => return .ctPath (← decodeAstPath d p)
  | (1, [a, r]) => return .ctFunction (← (← decodeArray a).mapM d.ctype) (← d.ctype r)
  | (2, [fl]) => return .ctAnonymous (← (← decodeArray fl).mapM (decodeField d))
  | (3, [t]) => return .ctParent (← d.ctype t)
  | (4, [tl, fl]) =>
    return .ctExtend (← (← decodeArray tl).mapM (decodeAstPath d)) (← (← decodeArray fl).mapM (decodeField d))
  | (5, [t]) => return .ctOptional (← d.ctype t)
  | (6, [n, t]) => return .ctNamed (← decodeString n) (← d.ctype t)
  | (7, [tl]) => return .ctIntersection (← (← decodeArray tl).mapM d.ctype)
  | _ => throw .invalidExpr

def decodeObjectField (o : Value) : Except Exc ObjectField := do
  let name ← decodeString (field o "field")
  let quotes ← decodeQuotes (field o "quotes")
  pure (.mk name quotes (← d.expr (field o "expr")))

def decodeVar (v : Value) : Except Exc EVar := do
  let final ← decodeOptBool (field v "isFinal")
  let static ← decodeOptBool (field v "isStatic")
  let name ← decodeString (field v "name")
  let t ← opt d.ctype (field v "type")
  let eo ← opt d.expr (field v "expr")
  let metas ← decodeMetaContent d (field v "meta")
  pure (.mk name final static t eo metas)

def decodeCase (c : Value) : Except Exc SwitchCase := do
  let values ← (← decodeArray (field c "values")).mapM d.expr
  pure (.mk values (← opt d.expr (field c "guard")) (← opt d.expr (field c "expr")))

/-- The default case: an object without an expression is an empty one. -/
def decodeDefault : Value → Except Exc (Option (Option Expr))
  | .vNull => pure none
  | v =>
    match field v "expr" with
    | .vNull => pure (some none)
    | _ => do pure (some (some (← d.expr v)))

def decodeCatch (c : Value) : Except Exc Catch := do
  let name ← decodeString (field c "name")
  let t ← opt d.ctype (field c "type")
  pure (.mk name t (← d.expr (field c "expr")))

/-- `decode` of `decode_expr`. -/
def decodeExprDef : Nat → List Value → Except Exc Expr
  | 0, [c] => return .eConst (← decodeConst c)
  | 1, [e1, e2] => return .eArray (← d.expr e1) (← d.expr e2)
  | 2, [op, e1, e2] => return .eBinop (← decodeOp op) (← d.expr e1) (← d.expr e2)
  | 3, [e, f, efk] => return .eField (← d.expr e) (← decodeString f) (← decodeEfieldKind efk)
  | 4, [e] => return .eParenthesis (← d.expr e)
  | 5, [a] => return .eObjectDecl (← (← decodeArray a).mapM (decodeObjectField d))
  | 6, [a] => return .eArrayDecl (← (← decodeArray a).mapM d.expr)
  | 7, [e, el] => return .eCall (← d.expr e) (← (← decodeArray el).mapM d.expr)
  | 8, [t, el] => return .eNew (← decodeAstPath d t) (← (← decodeArray el).mapM d.expr)
  | 9, [op, f, e] =>
    return .eUnop (← decodeUnop op) (if ← decodeBool f then .flagPostfix else .flagPrefix) (← d.expr e)
  | 10, [vl] => return .eVars (← (← decodeArray vl).mapM (decodeVar d))
  | 11, [kind, f] => return .eFunction (← decodeFunctionKind kind) (← decodeFun d f)
  | 12, [el] => return .eBlock (← (← decodeArray el).mapM d.expr)
  | 13, [e1, e2] => return .eFor (← d.expr e1) (← d.expr e2)
  | 14, [e1, e2, e3] => return .eIf (← d.expr e1) (← d.expr e2) (← opt d.expr e3)
  | 15, [e1, e2, flag] =>
    return .eWhile (← d.expr e1) (← d.expr e2) (if ← decodeBool flag then .normalWhile else .doWhile)
  | 16, [e, cases, eo] =>
    return .eSwitch (← d.expr e) (← (← decodeArray cases).mapM (decodeCase d)) (← decodeDefault d eo)
  | 17, [e, catches] => return .eTry (← d.expr e) (← (← decodeArray catches).mapM (decodeCatch d))
  | 18, [e] => return .eReturn (← opt d.expr e)
  | 19, [] => return .eBreak
  | 20, [] => return .eContinue
  | 21, [e] => return .eUntyped (← d.expr e)
  | 22, [e] => return .eThrow (← d.expr e)
  | 23, [e, t] => return .eCast (← d.expr e) (← opt d.ctype t)
  | 24, [e, dk] => return .eDisplay (← d.expr e) (← decodeDisplayKind dk)
  | 25, [e1, e2, e3] => return .eTernary (← d.expr e1) (← d.expr e2) (← d.expr e3)
  | 26, [e, t] => return .eCheckType (← d.expr e) (← d.ctype t)
  | 27, [m, e] => return .eMeta (← decodeMetaEntry d m) (← d.expr e)
  | 28, [e, t] => return .eIs (← d.expr e) (← d.ctype t)
  | _, _ => throw .invalidExpr

/-- `loop` of `decode_expr`. -/
def decodeExprLoop (v : Value) : Except Exc Expr := do
  decodePos (field v "pos")
  let (tag, pl) ← decodeEnum (field v "expr")
  decodeExprDef d tag pl

end

/-- The decoders with a stack of the given depth. An overflow is an invalid expression. -/
def decoders : Nat → Decoders
  | 0 => ⟨fun _ => .error .invalidExpr, fun _ => .error .invalidExpr, fun _ => .error .invalidExpr⟩
  | stack + 1 =>
    ⟨decodeExprLoop (decoders stack), decodeCType (decoders stack), decodeTParamDecl (decoders stack)⟩

mutual

/-- The number of nodes of a value. -/
def Value.size : Value → Nat
  | .vArray vl => Value.sizes vl + 1
  | .vObject fields => Value.fieldSizes fields + 1
  | .vEnumValue _ _ eargs => Value.sizes eargs + 1
  | .vNull | .vBool _ | .vString _ | .vPos => 1

def Value.sizes : List Value → Nat
  | [] => 0
  | v :: vl => v.size + Value.sizes vl

def Value.fieldSizes : List (String × Value) → Nat
  | [] => 0
  | (_, v) :: fl => v.size + Value.fieldSizes fl

end

/-- `decode_expr`, with a stack that the value cannot overflow. -/
def decodeExpr (v : Value) : Except Exc Expr := (decoders v.size).expr v

end EvilHaxe.Evil
