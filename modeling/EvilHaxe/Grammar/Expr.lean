/-
The parsers of expressions and statements. Those that call the mods (`expr`, `expr_next`, the blocks of
braces and others) are named here and given their programs by the system.
-/
import EvilHaxe.Grammar.Types

namespace EvilHaxe.Grammar

open EvilHaxe.Syntax EvilHaxe.Evil Lib

variable (cx : Settings)

def expr : P Expr := nt .expr

def secureExpr : P Expr := nt .secureExpr

def exprNext (e : Expr) (pmax : Int) : P Expr := nt (.exprNext e pmax)

/-- `mk_null_expr`. -/
def nullExpr : Expr := .eConst (.ident "null")

/-! ## Lists of elements -/

/-- The local `loop` of `parse_obj_decl`. -/
def objDeclLoop (acc : List ObjectField) : P (List ObjectField) :=
  alt (accept .comma)
    (fun _ => do
      let nextExpr (name : String) (qs : QuoteStatus) : P (List ObjectField) := do
        let e ← secureExpr
        nt (.objDeclLoop (.mk name qs e :: acc))
      let next (name : String) (qs : QuoteStatus) : P (List ObjectField) :=
        alt (accept .dblDot) (fun _ => nextExpr name qs) do
          -- the rest is parsed before the error is raised
          let fl ← nextExpr name qs
          syntaxError cx (.expected [":"]) fl
      match ← peek with
      | (.const (.ident name), _) => do junk; next name .noQuotes
      | (.const (.string name _), _) => do junk; next name .doubleQuotes
      | _ => pure acc)
    (pure acc)

/-- `parse_obj_decl`. -/
def parseObjDecl (name : String) (qs : QuoteStatus) (e : Expr) : P Expr := do
  let el ← nt (.objDeclLoop [.mk name qs e])
  pure (.eObjectDecl el.reverse)

/-- The local `loop` of `parse_array_decl`. -/
def arrayDeclLoop (acc : List Expr) : P (List Expr) :=
  alt (accept .comma)
    (fun _ =>
      alt (accept .bkClose) (fun _ => pure acc) <|
      alt secureExpr (fun e => nt (.arrayDeclLoop (e :: acc)))
        (syntaxError cx (.expected ["expr", "]"]) acc)) <|
  alt (accept .bkClose) (fun _ => pure acc) (syntaxError cx (.expected [",", "]"]) acc)

/-- `parse_array_decl`. -/
def parseArrayDecl : P Expr := do
  let el ← alt (accept .bkClose) (fun _ => pure []) <|
    alt secureExpr (fun e0 => nt (.arrayDeclLoop [e0]))
      (syntaxError cx (.expected ["expr", "]"]) [nullExpr])
  pure (.eArrayDecl el.reverse)

/-- The local `parse_next_param` of `parse_call_params`, and the position of the closing token. -/
def parseNextParam (acc : List Expr) (p1 : Pos) : P (List Expr × Pos) := do
  let e ← alt (recover .expr isStreamError)
    (fun
      | .ok e => pure e
      | .error (.streamError msg) => do handleStreamError cx msg; pure nullExpr
      | .error e => raise e)
    (syntaxError cx (.expected ("expression" :: if acc = [] then [")"] else [])) nullExpr)
  let done (p2 : Pos) : List Expr × Pos := ((checkSignatureMark cx e p1 p2 :: acc).reverse, p2)
  alt (accept .pClose) (fun p2 => pure (done p2)) <|
  alt (accept .comma)
    (fun p2 =>
      alt (accept .pClose) (fun p3 => pure (done p3))
        (nt (.parseNextParam (checkSignatureMark cx e p1 p2 :: acc) p2)))
    (do
      let (_, p2) ← peek
      syntaxError cx (.expected [",", ")"]) (done p2))

/-- `parse_call_params`, without the node it builds: the arguments and the position of the closing
token. -/
def parseCallParams (p1 : Pos) : P (List Expr × Pos) :=
  if cx.inDisplayFile then
    alt (accept .pClose) (fun p2 => pure ([], p2)) (nt (.parseNextParam [] p1))
  else do
    let el ← nt (.psepTrailing .comma .expr)
    alt (accept .pClose) (fun p2 => pure (el, p2)) do
      let (_, p) ← lastToken
      syntaxError cx (.expected (if el = [] then ["expression", ")"] else [",", ")"])) (el, p)

/-! ## Variables and functions -/

/-- The variable that `parse_var_decl_head` reads: metadata, name, type. -/
abbrev VarHead := List MetadataEntry × String × Option TypeHint

/-- `parse_var_decl_head`. -/
def parseVarDeclHead : P VarHead := do
  let metas ← nt .parseMeta
  alt dollarIdent
    (fun (name, _) =>
      alt (accept .pOpen)
        (fun _ => do
          let _ ← propertyAccessors
          let t ← must (popt (parseTypeHint cx))
          syntaxError cx (.custom "Cannot define property accessors for local vars") (metas, name, t))
        (do
          let t ← must (popt (parseTypeHint cx))
          pure (metas, name, t))) <|
  match metas.dropWhile (!isHxCompletion ·) with
  | [] => noKeyword "variable name"
  | metas => pure (metas, "", none)

/-- `parse_var_assignment`. -/
def parseVarAssignment : P (Option Expr) :=
  alt (accept (.binop .opAssign)) (fun _ => do let e ← secureExpr; pure (some e)) (pure none)

/-- `parse_var_assignment_resume`. -/
def parseVarAssignmentResume (final : Bool) : VarHead → P EVar
  | (metas, name, t) => do
    let eo ← parseVarAssignment
    pure (.mk name final false t eo metas)

/-- `parse_var_decls_next`. -/
def parseVarDeclsNext (final : Bool) (vl : List EVar) : P (List EVar) :=
  alt (accept .comma)
    (fun _ => do
      let head ← must (parseVarDeclHead cx)
      let v ← parseVarAssignmentResume final head
      nt (.parseVarDeclsNext final (v :: vl)))
    (pure vl)

/-- `parse_var_decls`. -/
def parseVarDecls (final : Bool) : P (List EVar) :=
  alt (parseVarDeclHead cx)
    (fun head => do
      let v ← parseVarAssignmentResume final head
      let vl ← nt (.parseVarDeclsNext final [v])
      pure vl.reverse)
    (raise (.error (.custom "Missing variable identifier")))

/-- `parse_var_decl`. -/
def parseVarDecl (final : Bool) : P EVar := do
  let head ← parseVarDeclHead cx
  must (parseVarAssignmentResume final head)

/-- `parse_block_var`. -/
def parseBlockVar : P (List EVar) :=
  alt (accept (.kwd .kwVar))
    (fun _ => do
      let vl ← must (parseVarDecls cx false)
      let _ ← must (semicolon cx)
      pure vl) do
    let _ ← accept (.kwd .kwFinal)
    checkRedundantVar cx
    alt (parseVarDecls cx true) (fun vl => do let _ ← must (semicolon cx); pure vl) serror

/-- The expression of a function that is not written yet. -/
def nullFunc (inl : Bool) : Expr := .eFunction (.fkNamed "_hx_magic" inl) (.mk [] [] none none)

/-- `parse_function`. -/
def parseFunction (p1 : Pos) (inl : Bool) : P Expr := do
  let name ← popt dollarIdent
  let pl ← parseConstraintParams cx
  alt (accept .pOpen)
    (fun _ => do
      let al ← must (nt (.psepTrailing .comma .parseFunParam))
      let _ ← must (accept .pClose)
      let t ← must (popt (parseTypeHint cx))
      let e ← nt (.functionExpr true)
      let kind := match name with
        | none => .fkAnonymous
        | some (name, _) => .fkNamed name inl
      pure (.eFunction kind (.mk pl al t (some e))))
    (do if ← wouldSkipDisplayPosition cx p1 false then pure (nullFunc inl) else serror)

/-- `arrow_expr`. -/
def arrowExpr : P Expr := alt (accept .arrow) (fun _ => must expr) serror

def FunArg.metas : FunArg → List MetadataEntry
  | .mk _ _ metas _ _ => metas

/-- The check of `arrow_function`, which goes on for the display server. -/
def checkArrowArgs : List FunArg → P Unit
  | [] => pure ()
  | a :: al => do
    if !(FunArg.metas a).isEmpty then
      syntaxError cx (.custom "Metadata on arrow function arguments is not allowed") ()
    checkArrowArgs al

/-- `arrow_function`. -/
def arrowFunction (al : List FunArg) (er : Expr) : P Expr := do
  checkArrowArgs cx al
  pure (.eFunction .fkArrow (.mk [] al none (some (.eMeta (.mk ":implicitReturn" []) (.eReturn (some er))))))

/-- `arrow_ident_checktype`. -/
def arrowIdentChecktype : Expr → P (String × Option TypeHint)
  | .eConst (.ident n) => pure (n, none)
  | .eCheckType (.eConst (.ident n)) t => pure (n, some t)
  | _ => serror

/-- `arrow_first_param`. -/
def arrowFirstParam (e : Expr) : P FunArg :=
  let assigned (e1 e2 : Expr) : P FunArg := do
    let (n, t) ← arrowIdentChecktype e1
    pure (.mk n true [] t (some e2))
  match e with
  | .eConst (.ident n) =>
    if n ∈ ["true", "false", "null", "this", "super"] then
      syntaxError cx (.custom "Invalid argument name") (.mk "" false [] none none)
    else pure (.mk n false [] none none)
  | .eBinop .opAssign e1 e2 => assigned e1 e2
  | .eParenthesis (.eBinop .opAssign e1 e2) => assigned e1 e2
  | .eParenthesis e => do
    let (n, t) ← arrowIdentChecktype e
    pure (.mk n false [] t none)
  | _ => serror

/-! ## Statements -/

/-- An XML literal and the semicolon that may follow it. -/
def xmlStatement (p1 : Pos) : P Expr := do
  let xml ← xmlLiteral p1
  optSemicolon
  pure (makeMeta ":markup" [] (.eConst (.string xml .sDoubleQuotes)))

def setStatic : EVar → EVar
  | .mk name final _ t e metas => .mk name final true t e metas

/-- `parse_block_elt`. -/
def parseBlockElt (body : Body) : P Expr :=
  alt (parseBlockVar cx) (fun vl => pure (.eVars vl)) <|
  alt (accept (.kwd .kwInline))
    (fun _ =>
      alt (accept (.kwd .kwFunction))
        (fun p1 => do
          let e ← must (parseFunction cx p1 true)
          let _ ← must (semicolon cx)
          pure e) <|
      alt secureExpr
        (fun e => do
          let _ ← must (semicolon cx)
          pure (makeMeta ":inline" [] e))
        serror) <|
  alt (accept (.kwd .kwStatic))
    (fun _ =>
      alt (parseBlockVar cx) (fun vl => pure (.eVars (vl.map setStatic)))
        (syntaxError cx (.expected ["var", "final"]) nullExpr)) <|
  alt (accept (.binop .opLt)) xmlStatement do
    let e ← nt (.topExpr body)
    let _ ← must (semicolon cx)
    pure e

/-- The function that `block2` parses the first statement with, whose first token it has read. -/
def block2Elt (ident : Constant) (p : Pos) : P Expr := do
  let e ← exprNext (.eConst ident) p.pmax
  let _ ← semicolon cx
  pure e

/-- `block_with_pos'`, without the position. -/
def blockWithPos' (body : Body) (acc : List Expr) (f : NT) (h : f.Res = Expr) : P (List Expr) :=
  alt (recover f fun e => cx.inDisplayFile && (isStreamError e || isError e))
    (fun
      | .ok e => nt (.block body (h ▸ e :: acc))
      | .error (.streamError msg) => do handleStreamError cx msg; nt (.block body acc)
      | .error _ => nt (.block body acc))
    (pure acc.reverse)
where
  /-- `Error _`. -/
  isError : Exc → Bool
    | .error _ => true
    | _ => false

/-- `block`; `block_with_pos`, without the position. -/
def block (body : Body) (acc : List Expr) : P (List Expr) :=
  blockWithPos' cx body acc (.parseBlockElt body) rfl

/-- `parse_guard`. -/
def parseGuard : P Expr := do
  let _ ← accept (.kwd .kwIf)
  let _ ← must (accept .pOpen)
  let e ← must expr
  let _ ← must (accept .pClose)
  pure e

/-- `expr_or_var`. -/
def exprOrVar : P Expr :=
  alt (accept (.kwd .kwVar))
    (fun _ => do
      let (n, _) ← must dollarIdent
      pure (.eVars [.mk n false false none none []])) <|
  alt (accept (.kwd .kwFinal))
    (fun _ => do
      checkRedundantVar cx
      alt dollarIdent (fun (n, _) => pure (.eVars [.mk n true false none none []])) serror)
    secureExpr

/-- The body of a case. -/
def caseBody (b : List Expr) : Option Expr := if b = [] then none else some (.eBlock b)

/-- `parse_switch_cases`. -/
def parseSwitchCases (cases : List SwitchCase) : P (List SwitchCase × Option (Option Expr)) :=
  alt (accept (.kwd .kwDefault))
    (fun _ => do
      let _ ← must (accept .dblDot)
      let b ← nt (.block .case [])
      let (l, dflt) ← nt (.parseSwitchCases cases)
      if dflt.isSome then syntaxError cx .duplicateDefault ()
      pure (l, some (caseBody b))) <|
  alt (accept (.kwd .kwCase))
    (fun _ => do
      let el ← must (psep .comma .exprOrVar)
      let eg ← must (popt parseGuard)
      let _ ← expectUnlessResumeP cx .dblDot ":"
      if el = [] then syntaxError cx (.custom "case without a pattern is not allowed") ([], none)
      else do
        let b ← nt (.block .case [])
        nt (.parseSwitchCases (.mk el eg (caseBody b) :: cases)))
    (pure (cases.reverse, none))

/-- `parse_catch`. -/
def parseCatch : P Catch := do
  let _ ← accept (.kwd .kwCatch)
  let _ ← must (accept .pOpen)
  let (name, _) ← must dollarIdent
  alt (parseTypeHint cx)
    (fun t => do
      let _ ← must (accept .pClose)
      let e ← must secureExpr
      pure (.mk name (some t) e)) <|
  alt (accept .pClose)
    (fun _ => do
      let e ← must secureExpr
      pure (.mk name none e))
    (raise (.error .missingType))

/-- `parse_catches`. -/
def parseCatches (catches : List Catch) : P (List Catch) :=
  alt (parseCatch cx) (fun c => nt (.parseCatches (c :: catches))) (pure catches.reverse)

/-! ## Expressions -/

/-- What a macro expression is checked to be: `haxe.macro.Expr` with a sub-type. -/
def macroType (sub : String) : TypeHint := .ctPath (mkTypePath ["haxe", "macro"] "Expr" [] (some sub))

def ofExcept {α : Type} : Except Exc α → P α
  | .ok a => pure a
  | .error e => raise e

/-- `parse_macro_expr`. -/
def parseMacroExpr : P Expr :=
  alt (accept .dblDot)
    (fun _ => do
      let t ← must (nt .parseComplexType)
      let e ← ofExcept (cx.reifyType cx.inMacro t)
      pure (.eCheckType e (macroType "ComplexType"))) <|
  alt (accept (.kwd .kwVar))
    (fun _ => do
      let vl ← must (psep .comma (.parseVarDecl false))
      ofExcept (cx.reifyExpr cx.inMacro (.eVars vl))) <|
  alt (accept (.kwd .kwFinal))
    (fun _ => do
      checkRedundantVar cx
      alt (psep .comma (.parseVarDecl true))
        (fun vl => ofExcept (cx.reifyExpr cx.inMacro (.eVars vl))) serror) <|
  alt (parseClass cx)
    (fun d => do
      let e ← ofExcept (cx.reifyTypeDef cx.inMacro d)
      pure (.eCheckType e (macroType "TypeDefinition"))) do
    let e ← secureExpr
    ofExcept (cx.reifyExpr cx.inMacro e)

/-- `parse_field`. -/
def parseField (e1 : Expr) (pmax : Int) (efk : EFieldKind) (p : Pos) : P Expr :=
  if checkResume cx p then pure (.eDisplay e1 .dkDot)
  else do
    let field (f : String) (p2 : Pos) : P Expr := do junk; exprNext (.eField e1 f efk) p2.pmax
    let otherwise : P Expr :=
      match e1 with
      | .eConst (.int v none) =>
        if pmax = p.pmin then exprNext (.eConst (.float (v ++ ".") none)) p.pmax else serror
      | _ => serror
    match ← peek with
    | (.kwd k, p2) =>
      if p.pmax = p2.pmin then
        match k with
        | .kwMacro => field "macro" p2
        | .kwExtern => field "extern" p2
        | .kwFunction => field "function" p2
        | .kwNew => field "new" p2
        | _ => if cx.parsingMacroCond then field (sKeyword k) p2 else otherwise
      else otherwise
    | (.const (.ident f), p2) => if p.pmax = p2.pmin then field f p2 else otherwise
    | (.dollar v, p2) => field ("$" ++ v) p2
    | _ => otherwise

/-- The `then`, `do` or loop part after a condition: `)` and an expression. -/
def closedExpr : P Expr :=
  alt (accept .pClose) (fun _ => must secureExpr) (syntaxError cx (.expected [")"]) nullExpr)

/-- The `else` part of an `if`. -/
def elseExpr : P (Option Expr) :=
  alt (accept (.kwd .kwElse)) (fun _ => do let e2 ← must secureExpr; pure (some e2)) do
    match ← npeek 1 with
    | [(.semicolon, _)] =>
      match ← npeek 2 with
      | [(.semicolon, _), (.kwd .kwElse, _)] => do
        junk
        junk
        let e2 ← secureExpr
        pure (some e2)
      | _ => pure none
    | _ => pure none

/-- The parameters after the first of an arrow function, its `)` and its expression. -/
def arrowRest : P (List FunArg × Expr) := do
  let al ← must (nt (.psepTrailing .comma .parseFunParam))
  let _ ← must (accept .pClose)
  let er ← must arrowExpr
  pure (al, er)

/-- `expr'` after `(`. -/
def parenthesis : P Expr :=
  alt (accept .pClose)
    (fun _ => do
      let er ← must arrowExpr
      arrowFunction cx [] er) <|
  alt (accept .question)
    (fun _ => do
      let (al, er) ← arrowRest
      match al with
      | .mk n _ _ t e :: al => arrowFunction cx (.mk n true [] t e :: al) er
      | [] => raise .ice) <|
  do
    let e ← expr
    alt (accept .pClose) (fun p2 => exprNext (.eParenthesis e) p2.pmax) <|
    alt (accept .comma)
      (fun _ => do
        let (al, er) ← arrowRest
        let a ← arrowFirstParam cx e
        arrowFunction cx (a :: al) er) <|
    alt (parseTypeHint cx) (typed e) do
      -- the rest is parsed before the error is raised
      let (_, p) ← lastToken
      let e ← exprNext (.eParenthesis e) p.pmax
      syntaxError cx (.expected [")", ",", ":"]) e
where
  /-- After `(e:t`. -/
  typed (e : Expr) (t : TypeHint) : P Expr :=
    alt (accept .pClose) (fun p2 => exprNext (.eParenthesis (.eCheckType e t)) p2.pmax) <|
    alt (accept .comma)
      (fun _ => do
        let (al, er) ← arrowRest
        let (n, _) ← arrowIdentChecktype e
        arrowFunction cx (.mk n false [] (some t) none :: al) er) <|
    alt (accept (.binop .opAssign))
      (fun _ => do
        let ea1 ← must expr
        let withArgs (al : List FunArg) (er : Expr) : P Expr :=
          match e with
          | .eConst (.ident n) => arrowFunction cx (.mk n true [] (some t) (some ea1) :: al) er
          | _ => serror
        alt (accept .pClose)
          (fun _ => do
            let er ← must arrowExpr
            withArgs [] er) <|
        alt (accept .comma)
          (fun _ => do
            let (al, er) ← arrowRest
            withArgs al er)
          serror)
      serror

/-- `expr'` after `cast`. -/
def castExpr : P Expr :=
  alt (accept .pOpen)
    (fun _ => do
      let e ← must expr
      alt (accept .comma)
        (fun _ => do
          let t ← must (nt .parseComplexType)
          let p2 ← must (accept .pClose)
          exprNext (.eCast e (some t)) p2.pmax) <|
      alt (parseTypeHint cx)
        (fun t => do
          let p2 ← must (accept .pClose)
          exprNext (.eCast (.eParenthesis (.eCheckType e t)) none) p2.pmax) <|
      alt (accept .pClose)
        (fun p2 => do
          let ep ← exprNext (.eParenthesis e) p2.pmax
          let (_, p) ← lastToken
          exprNext (.eCast ep none) p.pmax)
        serror) do
    let e ← secureExpr
    let (_, p) ← lastToken
    exprNext (.eCast e none) p.pmax

/-- `expr'` after its metadata alternative, from the token it starts with. -/
def primary : P Expr := do
  let (t, p) ← peek
  match t with
  | .binop .opLt => do
    junk
    let xml ← xmlLiteral p
    pure (makeMeta ":markup" [] (.eConst (.string xml .sDoubleQuotes)))
  | .brOpen => do junk; nt (.braces p)
  | .kwd k =>
    if cx.parsingMacroCond then do junk; exprNext (.eConst (.ident (sKeyword k))) p.pmax
    else
      match k with
      | .kwMacro => do
        junk
        alt (accept .dot)
          (fun pd => must (parseField cx (.eConst (.ident "macro")) p.pmax .efNormal pd)) <|
        alt (parseMacroExpr cx) pure serror
      | .kwVar => do
        junk
        let v ← must (nt (.parseVarDecl false))
        pure (.eVars [v])
      | .kwFinal => do
        junk
        checkRedundantVar cx
        alt (nt (.parseVarDecl true)) (fun v => pure (.eVars [v])) serror
      | .kwThis | .kwAbstract | .kwTrue | .kwFalse | .kwNull => do
        junk
        exprNext (.eConst (.ident (sKeyword k))) p.pmax
      | .kwCast => do junk; castExpr cx
      | .kwThrow => do
        junk
        let e ← must expr
        pure (.eThrow e)
      | .kwNew => do
        junk
        let t ← must (parseTypePathOrResume cx p)
        alt (accept .pOpen)
          (fun po => do
            let (el, p2) ← must (parseCallParams cx po)
            exprNext (.eNew t el) p2.pmax)
          (syntaxError cx (.expected ["("]) (.eNew t []))
      | .kwFunction => do junk; must (parseFunction cx p false)
      | .kwFor => do
        junk
        let _ ← must (accept .pOpen)
        let it ← must secureExpr
        let e ← closedExpr cx
        pure (.eFor it e)
      | .kwIf => do
        junk
        let _ ← must (accept .pOpen)
        let cond ← must secureExpr
        let e1 ← closedExpr cx
        let e2 ← elseExpr
        pure (.eIf cond e1 e2)
      | .kwReturn => do
        junk
        alt expr (fun e => pure (.eReturn (some e))) do
          if ← wouldSkipDisplayPosition cx p true then pure (.eReturn (some nullExpr))
          else pure (.eReturn none)
      | .kwBreak => do junk; pure .eBreak
      | .kwContinue => do junk; pure .eContinue
      | .kwWhile => do
        junk
        let _ ← must (accept .pOpen)
        let cond ← must secureExpr
        let e ← closedExpr cx
        pure (.eWhile cond e .normalWhile)
      | .kwDo => do
        junk
        let e ← must secureExpr
        alt (accept (.kwd .kwWhile))
          (fun _ => do
            let _ ← must (accept .pOpen)
            let cond ← must secureExpr
            let _ ← expectUnlessResumeP cx .pClose ")"
            pure (.eWhile cond e .doWhile))
          (syntaxError cx (.expected ["while"]) e)
      | .kwSwitch => do
        junk
        let e ← must switchExpr
        alt (accept .brOpen)
          (fun _ => do
            let (cases, dflt) ← must (nt (.parseSwitchCases []))
            alt (accept .brClose) (fun _ => pure (.eSwitch e cases dflt))
              (syntaxError cx (.expected ["\x7d"]) (.eSwitch e cases dflt)))
          (syntaxError cx (.expected ["\x7b"]) (.eSwitch e [] none))
      | .kwTry => do
        junk
        let e ← must secureExpr
        let cl ← must (nt (.parseCatches []))
        pure (.eTry e cl)
      | .kwUntyped => do
        junk
        let e ← must secureExpr
        pure (.eUntyped e)
      | .kwInline => do
        junk
        let e ← must secureExpr
        pure (makeMeta ":inline" [] e)
      | _ => fail
  | .const c => do junk; exprNext (.eConst c) p.pmax
  | .pOpen => do junk; parenthesis cx
  | .bkOpen => do
    junk
    let e ← must (parseArrayDecl cx)
    let (_, p2) ← lastToken
    exprNext e p2.pmax
  | .unop op => do
    junk
    let e ← must expr
    pure (makeUnop op e)
  | .spread => do
    junk
    let e ← must expr
    pure (makeUnop .spread e)
  | .binop .opSub => do
    junk
    let e ← must expr
    pure (makeUnop .neg e)
  | .intInterval i => do
    junk
    let e2 ← must expr
    pure (makeBinop .opInterval (.eConst (.int i none)) e2)
  | .dollar v => do junk; exprNext (.eConst (.ident ("$" ++ v))) p.pmax
  | _ => fail
where
  /-- `switch_expr secure_expr`. -/
  switchExpr : P Expr := do
    Prog.op (S := sig) (.setParsingSwitchExpr true)
    let e ← secureExpr
    Prog.op (S := sig) (.setParsingSwitchExpr false)
    pure e

/-- `expr'`. -/
def expr' : P Expr :=
  alt (parseMetaEntry cx)
    (fun
      | .mk name params =>
        alt (recover .secureExpr fun e => cx.inDisplayFile && isStreamError e)
          (fun
            | .ok e => pure (makeMeta name params e)
            | .error _ => pure (makeMeta name params nullExpr))
          (if cx.inDisplayFile then pure (makeMeta name params nullExpr) else fail))
    (primary cx)

/-- `make_binop` after an operator and its right operand. -/
def notedBinop (op : Binop) (e1 e2 : Expr) : P Expr := do
  noteBinop op e1 e2
  pure (makeBinop op e1 e2)

/-- `expr_next'` after `>`. -/
def greater (e1 : Expr) (p1 : Pos) : P Expr :=
  alt (acceptAt (.binop .opGt) p1)
    (fun p2 =>
      alt (acceptAt (.binop .opGt) p2)
        (fun p3 =>
          alt (acceptAt (.binop .opAssign) p3)
            (fun _ => do
              let e2 ← must expr
              notedBinop (.opAssignOp .opUShr) e1 e2) do
            let e2 ← secureExpr
            notedBinop .opUShr e1 e2) <|
      alt (acceptAt (.binop .opAssign) p2)
        (fun _ => do
          let e2 ← must expr
          notedBinop (.opAssignOp .opShr) e1 e2) do
        let e2 ← secureExpr
        notedBinop .opShr e1 e2) <|
  alt (acceptAt (.binop .opAssign) p1)
    (fun _ => do
      let e2 ← secureExpr
      notedBinop .opGte e1 e2) do
    let e2 ← secureExpr
    notedBinop .opGt e1 e2

/-- `expr_next'`. -/
def exprNext' (e1 : Expr) (pmax : Int) : P Expr := do
  let (t, p) ← peek
  match t with
  | .brOpen =>
    match e1 with
    | .eConst (.ident n) =>
      if isDollarIdent e1 then do
        junk
        let eparam ← must expr
        let p2 ← must (accept .brClose)
        exprNext (.eMeta (.mk n []) eparam) p2.pmax
      else pure e1
    | _ => pure e1
  | .dot => do junk; must (parseField cx e1 pmax .efNormal p)
  | .questionDot => do junk; must (parseField cx e1 pmax .efSafe p)
  | .pOpen => do
    junk
    let (el, p2) ← must (parseCallParams cx p)
    exprNext (.eCall e1 el) p2.pmax
  | .bkOpen => do
    junk
    let e2 ← must secureExpr
    let p2 ← expectUnlessResumeP cx .bkClose "]"
    exprNext (.eArray e1 (checkSignatureMark cx e2 p p2)) p2.pmax
  | .arrow => do
    junk
    let er ← secureExpr
    let a ← arrowFirstParam cx e1
    arrowFunction cx [a] er
  | .binop op => do
    junk
    if op = .opGt then greater e1 p
    else do
      let e2 ← must secureExpr
      notedBinop op e1 e2
  | .spread => do
    junk
    let e2 ← must secureExpr
    notedBinop .opInterval e1 e2
  | .unop op =>
    if isPostfix op then do
      junk
      exprNext (.eUnop op .flagPostfix e1) p.pmax
    else pure e1
  | .question => do
    junk
    let e2 ← must expr
    alt (accept .dblDot)
      (fun _ => do
        let e3 ← must expr
        pure (.eTernary e1 e2 e3))
      (syntaxError cx (.expected [":"]) e2)
  | .kwd .kwIn => do
    junk
    let e2 ← must expr
    notedBinop .opIn e1 e2
  | .const (.ident "is") => do
    junk
    let t ← must (nt .parseComplexType)
    let (_, p2) ← lastToken
    exprNext (.eIs e1 t) p2.pmax
  | _ => pure e1

/-- `secure_expr`. -/
def secureExpr' : P Expr := alt expr pure (syntaxError cx (.expected ["expression"]) nullExpr)

end EvilHaxe.Grammar
