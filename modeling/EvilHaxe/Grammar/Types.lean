/-
The parsers of types, type parameters, function arguments and class fields.
-/
import EvilHaxe.Grammar.Common

namespace EvilHaxe.Grammar

open EvilHaxe.Syntax EvilHaxe.Evil Lib

variable (cx : Settings)

/-! ## Type paths -/

/-- `parse_type_path2`, where the local `check_display` is the test on `p`. -/
def parseTypePath2 (p0 : Option Pos) (pack : List String) (name : String) (p1 : Pos) : P TypePath :=
  let p := match p0 with
    | none => p1
    | some p => punion p p1
  let checkDisplay (f : P TypePath) : P TypePath :=
    if cx.inDisplayFile && enclosesPosition cx.displayPosition p then
      pure (mkTypePath pack.reverse name [] none)
    else f
  if isLowerIdent name then
    alt (accept .dot)
      (fun p =>
        if checkResume cx p then raise .displayException
        else nt (.parseTypePath1 (some (p0.getD p1)) (name :: pack))) <|
    alt (accept .semicolon)
      (fun _ => checkDisplay (raise (.error (.custom "Type name should start with an uppercase letter")))) <|
    checkDisplay serror
  else do
    let sub ← alt (accept .dot)
      (fun p =>
        if checkResume cx p then raise .displayException
        else do
          match ← peek with
          | (.const (.ident name), _) => if isLowerIdent name then serror else do junk; pure (some name)
          | _ => serror)
      (pure none)
    let params ← alt (accept (.binop .opLt))
      (fun plt => do
        let l ← must (psep .comma (.parseTypePathOrConst plt))
        alt (accept (.binop .opGt)) (fun _ => pure l) (syntaxError cx (.expected [">"]) l))
      (pure [])
    pure (mkTypePath pack.reverse name params sub)

/-- `parse_type_path1`. -/
def parseTypePath1 (p0 : Option Pos) (pack : List String) : P TypePath := do
  let (name, p1) ← dollarIdentMacro pack
  parseTypePath2 cx p0 pack name p1

/-- `parse_type_path`. -/
def parseTypePath : P TypePath := nt (.parseTypePath1 none [])

/-- `parse_type_path_or_resume`. -/
def parseTypePathOrResume (p1 : Pos) : P TypePath := do
  let resume (exc : P TypePath) : P TypePath := do
    if ← wouldSkipDisplayPosition cx p1 true then pure (.mk [] "" [] none) else exc
  alt (recover (.parseTypePath1 none []) fun e => cx.inDisplayFile && isStreamError e)
    (fun
      | .ok t => pure t
      | .error e => resume (raise e))
    (resume fail)

/-! ## Types -/

/-- The local `make_fun` of `parse_complex_type_next'`. -/
def makeFun (t : TypeHint) : TypeHint → TypeHint
  | .ctFunction args r => .ctFunction (t :: args) r
  | t2 => .ctFunction [t] t2

/-- The local `make_intersection` of `parse_complex_type_next'`. -/
def makeIntersection (t : TypeHint) : TypeHint → TypeHint
  | .ctIntersection tl => .ctIntersection (t :: tl)
  | t2 => .ctIntersection [t, t2]

/-- `p`, or a type that is not written yet at the display position. -/
def typeOrDisplay (p : P TypeHint) (pa : Pos) : P TypeHint :=
  alt p pure (do if ← wouldSkipDisplayPosition cx pa false then pure magicType else serror)

/-- `parse_complex_type_at`. -/
def parseComplexTypeAt (p : Pos) : P TypeHint := typeOrDisplay cx (nt .parseComplexType) p

/-- `parse_type_hint`. -/
def parseTypeHint : P TypeHint := do
  let p1 ← accept .dblDot
  if ← checkResumeRange cx p1 then
    -- `pignore`
    let _ ← popt (recover (.parseComplexTypeAt p1) isStreamError)
    pure magicType
  else nt (.parseComplexTypeAt p1)

/-- `parse_complex_type_next'`. -/
def parseComplexTypeNext' (t : TypeHint) : P TypeHint :=
  alt (accept .arrow)
    (fun pa => do
      let t2 ← typeOrDisplay cx (nt .parseComplexType) pa
      pure (makeFun t t2)) <|
  alt (accept (.binop .opAnd))
    (fun pa => do
      let t2 ← typeOrDisplay cx (nt .parseComplexType) pa
      pure (makeIntersection t t2))
    (pure t)

/-- `parse_function_type_next`. -/
def parseFunctionTypeNext (tl : List TypeHint) : P TypeHint :=
  alt (accept .arrow)
    (fun pa => do
      let tret ← typeOrDisplay cx (nt (.parseComplexTypeInner false)) pa
      pure (.ctFunction tl tret))
    serror

/-- `parse_complex_type_maybe_named`. -/
def parseComplexTypeMaybeNamed (allowNamed : Bool) : P TypeHint :=
  alt (accept .pOpen)
    (fun _ => do
      let tl ← must (nt (.psepTrailing .comma (.parseComplexTypeMaybeNamed true)))
      let _ ← must (accept .pClose)
      match tl with
      | [] => parseFunctionTypeNext cx []
      | [.ctNamed n t] => parseFunctionTypeNext cx [.ctNamed n t]
      | [t] => nt (.parseComplexTypeNext (.ctParent t))
      | tl => parseFunctionTypeNext cx tl)
    (do
      let t ← nt (.parseComplexTypeInner allowNamed)
      nt (.parseComplexTypeNext t))

/-- `parse_complex_type'`. -/
def parseComplexType' : P TypeHint := nt (.parseComplexTypeMaybeNamed false)

/-- `parse_structural_extension`. -/
def parseStructuralExtension : P TypePath := do
  let p1 ← accept (.binop .opGt)
  alt parseTypePath
    (fun t => alt (accept .comma) (fun _ => pure t) (syntaxError cx (.expected [","]) t))
    (do
      if ← wouldSkipDisplayPosition cx p1 false then
        let _ ← popt (accept .comma)
        pure (.mk [] "" [] none)
      else fail)

/-- `parse_class_fields`. -/
def parseClassFields (tdecl : Bool) : P (List ClassField) :=
  if cx.inDisplayFile then nt (.parseClassFieldResume [] tdecl)
  else do
    let acc ← nt (.plist (.parseClassField tdecl))
    alt (accept .brClose) (fun _ => pure acc) (raise (.error (.expected ["\x7d"])))

/-- The `haxe.Rest` of a `...` type. -/
def restOf (t : TypeHint) : TypeHint := .ctPath (mkTypePath ["haxe"] "Rest" [.tpType t] none)

/-- `parse_complex_type_inner`. -/
def parseComplexTypeInner (allowNamed : Bool) : P TypeHint :=
  alt (accept .pOpen)
    (fun _ => do
      let t ← must (nt .parseComplexType)
      let _ ← must (accept .pClose)
      pure (.ctParent t)) <|
  alt (accept .brOpen)
    (fun _ =>
      alt (nt .parseTypeAnonymous) (fun l => pure (.ctAnonymous l)) <|
      alt (nt .parseStructuralExtension)
        (fun t => do
          let ts ← nt (.plist .parseStructuralExtension)
          alt (nt .parseTypeAnonymous) (fun l => pure (.ctExtend (t :: ts) l)) do
            let l ← parseClassFields cx true
            pure (.ctExtend (t :: ts) l)) <|
      alt (parseClassFields cx true) (fun l => pure (.ctAnonymous l)) serror) <|
  alt (accept .question)
    (fun _ => do
      let t ← must (nt (.parseComplexTypeInner allowNamed))
      pure (.ctOptional t)) <|
  alt (accept .spread)
    (fun _ => do
      match ← must (nt (.parseComplexTypeInner allowNamed)) with
      | .ctNamed _ hint => pure (restOf hint)
      | t => pure (restOf t)) <|
  alt dollarIdent
    (fun (n, p) => do
      let (t, _) ← peek
      if t = .dblDot ∧ allowNamed then
        junk
        let t ← must (nt .parseComplexType)
        pure (.ctNamed n t)
      else do
        let t ← parseTypePath2 cx none [] n p
        pure (.ctPath t))
    (do
      let t ← parseTypePath
      pure (.ctPath t))

/-- `parse_type_anonymous`. -/
def parseTypeAnonymous : P (List ClassField) := do
  let p0 ← popt (accept .question)
  alt dollarIdent
    (fun (name, _) => do
      let t ← must (parseTypeHint cx)
      let next (acc : List ClassField) : List ClassField :=
        .mk name (if p0.isSome then [.mk ":optional" []] else []) [] (.fVar (some t) none) :: acc
      alt (accept .brClose) (fun _ => pure (next [])) <|
      alt (accept .comma)
        (fun _ =>
          alt (accept .brClose) (fun _ => pure (next [])) <|
          alt (nt .parseTypeAnonymous) (fun l => pure (next l)) serror)
        (syntaxError cx (.expected [",", "\x7d"]) (next [])))
    (if p0.isSome then serror else fail)

/-! ## Type parameters and function arguments -/

/-- `parse_constraint_params`. -/
def parseConstraintParams : P (List TypeParam) :=
  alt (accept (.binop .opLt))
    (fun _ =>
      alt (psepNonempty .comma .parseConstraintParam)
        (fun l => do let _ ← must (accept (.binop .opGt)); pure l)
        (do
          let _ ← popt (accept (.binop .opGt))
          syntaxError cx (.expected ["type parameter"]) []))
    (pure [])

/-- A type after `t`, if there is `t`. -/
def typeAfter (t : Token) : P (Option TypeHint) :=
  alt (accept t) (fun _ => alt (nt .parseComplexType) (fun t => pure (some t)) serror) (pure none)

/-- `parse_constraint_param`. -/
def parseConstraintParam : P TypeParam := do
  let metas ← nt .parseMeta
  alt (typeName cx)
    (fun name => do
      let cto ← typeAfter .dblDot
      let dflt ← typeAfter (.binop .opAssign)
      pure (.mk name [] cto dflt metas))
    (do
      if !metas.isEmpty then syntaxError cx (.expected ["type name"]) ()
      fail)

/-- `parse_fun_param_value`. -/
def parseFunParamValue : P (Option Expr) :=
  alt (accept (.binop .opAssign)) (fun _ => do let e ← must (nt .expr); pure (some e)) (pure none)

/-- `ct_mono`. -/
def ctMono : TypeHint := .ctPath (.mk ["$"] "_hx_mono" [] none)

/-- `parse_fun_param`. -/
def parseFunParam : P FunArg := do
  let metas ← nt .parseMeta
  alt (accept .question)
    (fun _ => do
      let (name, _) ← must dollarIdent
      let t ← must (popt (parseTypeHint cx))
      let c ← must parseFunParamValue
      pure (.mk name true metas t c)) <|
  alt dollarIdent
    (fun (name, _) => do
      let t ← must (popt (parseTypeHint cx))
      let c ← must parseFunParamValue
      pure (.mk name false metas t c))
    (do
      let _ ← accept .spread
      let (name, _) ← must dollarIdent
      let t ← must (popt (parseTypeHint cx))
      let c ← must parseFunParamValue
      pure (.mk name false metas (some (restOf (t.getD ctMono))) c))

/-! ## Class fields -/

/-- `parse_cf_rights`. -/
def parseCfRights : P Access := do
  let (t, _) ← peek
  let a ← match t with
    | .kwd .kwStatic => pure .aStatic
    | .kwd .kwMacro => pure .aMacro
    | .kwd .kwPublic => pure .aPublic
    | .kwd .kwPrivate => pure .aPrivate
    | .kwd .kwOverride => pure .aOverride
    | .kwd .kwDynamic => pure .aDynamic
    | .kwd .kwInline => pure .aInline
    | .kwd .kwExtern => pure .aExtern
    | .kwd .kwAbstract => pure .aAbstract
    | .kwd .kwOverload => pure .aOverload
    | _ => fail
  junk
  pure a

/-- `parse_fun_name`. -/
def parseFunName : P String :=
  alt dollarIdent (fun (name, _) => pure name) (do let _ ← accept (.kwd .kwNew); pure "new")

/-- `parse_function_field`. -/
def parseFunctionField : P (String × ClassFieldKind) := do
  let _ ← accept (.kwd .kwFunction)
  let name ← must parseFunName
  let pl ← must (parseConstraintParams cx)
  let _ ← must (accept .pOpen)
  let args ← must (nt (.psepTrailing .comma .parseFunParam))
  let _ ← must (accept .pClose)
  let t ← must (popt (parseTypeHint cx))
  let e ← alt (nt (.functionExpr false))
    (fun e => do let _ ← semicolon cx; pure (some e)) <|
    alt (semicolon cx) (fun _ => pure none) serror
  pure (name, .fFun (.mk pl args t e))

/-- `parse_var_field_assignment`. -/
def parseVarFieldAssignment : P (Option Expr) :=
  alt (accept (.binop .opAssign))
    (fun _ =>
      alt (accept (.binop .opLt))
        (fun p1 => do
          let xml ← xmlLiteral p1
          optSemicolon
          pure (some (makeMeta ":markup" [] (.eConst (.string xml .sDoubleQuotes))))) <|
      alt (nt .expr) (fun e => do let _ ← must (semicolon cx); pure (some e)) serror) <|
  alt (semicolon cx) (fun _ => pure none) serror

/-- The local `check_optional` of `parse_class_field'`. -/
def checkOptional (tdecl : Bool) (metas : List MetadataEntry) (opt : Bool) : P (List MetadataEntry) := do
  if opt then
    if !tdecl then syntaxError cx (.custom "?var syntax is only allowed in structures") ()
    pure (.mk ":optional" [] :: metas)
  else pure metas

/-- The accessors of a property, after its `(`. -/
def propertyAccessors : P (String × String) := do
  let i1 ← must propertyIdent
  let _ ← must (accept .comma)
  let i2 ← must propertyIdent
  let _ ← must (accept .pClose)
  pure (i1, i2)

/-- `parse_class_field'`. -/
def parseClassField' (tdecl : Bool) : P ClassField := do
  let metas ← nt .parseMeta
  let al ← nt (.plist .parseCfRights)
  alt (accept (.kwd .kwVar))
    (fun _ => do
      let (opt, name) ← must (questionableDollarIdent cx)
      let metas ← checkOptional cx tdecl metas opt
      alt (accept .pOpen)
        (fun _ => do
          let (i1, i2) ← propertyAccessors
          let t ← popt (parseTypeHint cx)
          let e ← parseVarFieldAssignment cx
          pure (.mk name metas al (.fProp i1 i2 t e)))
        (do
          let t ← popt (parseTypeHint cx)
          let e ← parseVarFieldAssignment cx
          pure (.mk name metas al (.fVar t e)))) <|
  alt (accept (.kwd .kwFinal))
    (fun _ => do
      checkRedundantVar cx
      alt (questionableDollarIdent cx)
        (fun (opt, name) =>
          alt (accept .pOpen)
            (fun _ => do
              let (i1, i2) ← propertyAccessors
              let t ← must (popt (parseTypeHint cx))
              let e ← must (parseVarFieldAssignment cx)
              let metas ← checkOptional cx tdecl metas opt
              pure (.mk name metas (al ++ [.aFinal]) (.fProp i1 i2 t e)))
            (do
              let t ← must (popt (parseTypeHint cx))
              let e ← must (parseVarFieldAssignment cx)
              let metas ← checkOptional cx tdecl metas opt
              pure (.mk name metas (al ++ [.aFinal]) (.fVar t e)))) <|
      alt (nt (.plist .parseCfRights))
        (fun al2 => do
          let (name, k) ← must (parseFunctionField cx)
          pure (.mk name metas (al ++ .aFinal :: al2) k))
        serror) <|
  alt (parseFunctionField cx) (fun (name, k) => pure (.mk name metas al k)) do
    match al.reverse with
    | [] => fail
    | .aOverride :: _ =>
      -- the position of `override`, the token before
      let (_, po) ← lastToken
      match ← checkCompletion cx po true with
      | none => serror
      | some so =>
        pure (.mk (so.getD "") (.mk ":?display.override" [] :: metas) al (.fFun (.mk [] [] none none)))
    | _ => serror

/-- The local `loop` of `junk_tokens`: past the `POpen` that matches. -/
def matchParen : Nat → List Token → List Token
  | _, [] => []
  | n, .pOpen :: l => if n = 0 then l else matchParen (n - 1) l
  | n, .pClose :: l => matchParen (n + 1) l
  | n, _ :: l => matchParen n l

/-- A name that metadata can have. -/
def isMetaName : Token → Bool
  | .const (.ident _) | .kwd _ => true
  | _ => false

/-- The local `junk_tokens` of `resume`, on the tokens before the declaration, the last first: how
many to junk. -/
def junkTokens : Nat → List Token → Nat
  | 0, l => l.length
  | fuel + 1, l =>
    match l with
    | .kwd .kwPrivate :: l => junkTokens fuel l
    | .pClose :: l' =>
      match matchParen 0 l' with
      | t :: .atSign :: l' => if isMetaName t then junkTokens fuel l' else l.length
      | t :: .dblDot :: .atSign :: l' => if isMetaName t then junkTokens fuel l' else l.length
      | _ => l.length
    | t :: .dblDot :: .atSign :: l' => if isMetaName t then junkTokens fuel l' else l.length
    | t :: .atSign :: l' => if isMetaName t then junkTokens fuel l' else l.length
    | _ => l.length

/-- The local `loop` of `resume`. -/
def resumeLoop (tdecl fdecl : Bool) (k : Nat) : P Bool := do
  let toks ← npeek k
  let again : P Bool := nt (.resumeLoop tdecl fdecl (k + 1))
  let stop (l : List Token) (b : Bool) : P Bool := do junks (junkTokens l.length l); pure b
  match (toks.map Prod.fst).reverse with
  | .kwd _ :: .atSign :: _ => again
  | .kwd _ :: .dblDot :: .atSign :: _ => again
  | .const _ :: .kwd .kwFunction :: l => if fdecl then stop l true else again
  | .kwd .kwNew :: .kwd .kwFunction :: l => if fdecl then stop l true else again
  | .kwd k :: l =>
    match k with
    | .kwMacro | .kwPublic | .kwStatic | .kwVar | .kwFinal | .kwOverride | .kwDynamic | .kwInline
    | .kwOverload => if fdecl then stop l true else again
    | .kwImport | .kwUsing | .kwExtern | .kwClass | .kwInterface | .kwEnum | .kwTypedef | .kwAbstract =>
      stop l false
    | _ => again
  | .brClose :: l => if tdecl then stop l false else again
  | .eof :: l => stop l false
  | [] => pure false
  | _ => again

/-- `resume`. -/
def resume (tdecl fdecl : Bool) : P Bool := nt (.resumeLoop tdecl fdecl 1)

/-- `parse_class_field_resume`. -/
def parseClassFieldResume (acc : List ClassField) (tdecl : Bool) : P (List ClassField) := do
  let failed (msg : String) : P (List ClassField) := do
    handleStreamError cx msg
    if ← resume tdecl true then nt (.parseClassFieldResume acc tdecl) else pure acc
  alt (recover (.parseClassField tdecl) isStreamError)
    (fun
      | .ok cff => nt (.parseClassFieldResume (cff :: acc) tdecl)
      | .error (.streamError msg) => failed msg
      | .error e => raise e) <|
  alt (accept .brClose) (fun _ => pure acc.reverse) (failed "")

/-- `parse_class_herit`. -/
def parseClassHerit : P ClassFlag := do
  match ← peek with
  | (.kwd .kwExtends, p1) => do
    junk
    let t ← must (parseTypePathOrResume cx p1)
    pure (.hExtends t)
  | (.kwd .kwImplements, p1) => do
    junk
    let t ← must (parseTypePathOrResume cx p1)
    pure (.hImplements t)
  | _ => fail

/-- `parse_class_flags`. -/
def parseClassFlags : P (List ClassFlag) :=
  alt (accept (.kwd .kwClass)) (fun _ => pure []) (do
    let _ ← accept (.kwd .kwInterface)
    pure [.hInterface])

/-- `parse_class` where no name is needed. -/
def parseClass : P ClassDef := do
  let n ← parseClassFlags
  let name ← must (popt (typeName cx))
  let tl ← must (parseConstraintParams cx)
  let hl ← must (nt (.plist .parseClassHerit))
  let _ ← must (accept .brOpen)
  let fl ← must (parseClassFields cx true)
  pure { name := name.getD "", params := tl, flags := n ++ hl, data := fl }

/-- `parse_type_path_or_const`, after `[`, whose elements are parsed by `parse_array_decl`. -/
def parseTypePathOrConst (parseArrayDecl : P Expr) (plt : Pos) : P TypeParamOrConst :=
  alt (accept .bkOpen) (fun _ => do let e ← must parseArrayDecl; pure (.tpExpr e)) <|
  alt (nt .parseComplexType) (fun t => pure (.tpType t)) do
    match ← peek with
    | (.unop op, _) => do junk; constant (makeUnop op)
    | (.binop .opSub, _) => do junk; constant (makeUnop .neg)
    | (.const c, _) => do junk; pure (.tpExpr (.eConst c))
    | (.kwd .kwTrue, _) => do junk; pure (.tpExpr (.eConst (.ident "true")))
    | (.kwd .kwFalse, _) => do junk; pure (.tpExpr (.eConst (.ident "false")))
    | _ =>
      alt (nt .expr) (fun e => pure (.tpExpr e)) do
        if cx.inDisplayFile then
          if ← wouldSkipDisplayPosition cx plt false then pure (.tpType magicType) else fail
        else serror
where
  constant (f : Expr → Expr) : P TypeParamOrConst := do
    match ← peek with
    | (.const c, _) => do junk; pure (.tpExpr (f (.eConst c)))
    | _ => serror

end EvilHaxe.Grammar
