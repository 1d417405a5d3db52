/-
What the parsers of `grammar.mly` are programs over: the token stream, the parser's global state, and
the parsers themselves, which call each other (and the mods) by name.

A stream parser fails softly with `Stream.Failure`, which lets the alternatives after it be tried, as
long as nothing is asked of it after its first component; a later component that fails is
`Stream.Error ""`. Both follow `camlp5`'s reading of `parser`.

The trace is not in the source. It keeps what happened, for statements about whole runs; no parser
reads it.
-/
import EvilHaxe.Lib.Program
import EvilHaxe.Evil.Hooks

namespace EvilHaxe.Grammar

open EvilHaxe.Syntax EvilHaxe.Evil Lib

/-! ## Settings and state -/

/-- The globals that a parse does not change, and the functions of other modules it calls: the XML
literal at a position with the tokens left after it (`Lexer.lex_xml`), and the three reifications. -/
structure Settings where
  inDisplay : Bool
  inDisplayFile : Bool
  inDisplay_of_file : inDisplayFile = true → inDisplay = true
  isCompletion : Bool
  isSignatureDisplay : Bool
  displayPosition : Pos
  inMacro : Bool
  parsingMacroCond : Bool
  eofPos : Pos
  lexXml : Pos → TokenList → Except Exc (String × TokenList)
  reifyExpr : Bool → Expr → Except Exc Expr
  reifyType : Bool → TypeHint → Except Exc Expr
  reifyTypeDef : Bool → ClassDef → Except Exc Expr

/-- The statement list that a statement stands in: of braces, or of a `case`. No parser decides by it. -/
inductive Body where
  | braces | case
  deriving DecidableEq

inductive Note where
  /-- An error was caught and the parse went on. -/
  | recovered
  /-- `expr_next'` combined an operator with what is right of it. -/
  | binop (op : Binop) (e1 e2 : Expr)
  /-- `on_block_start` for the block that opens at a position, and its calls. -/
  | blockStart (b : Pos)
  | blockHook (i : Nat) (b : Pos)
  /-- The call of the `on_block_next` hooks for a block, and its calls. -/
  | blockNext (b : Pos)
  | blockNextHook (i : Nat) (b : Pos)
  /-- A callback of a block hook failed. -/
  | blockHookFailed
  /-- `call_hooks` left out callbacks of `on_block_next`, as one before them had a result. -/
  | blockNextCut
  /-- A mod called `parseBlockInternals`. -/
  | blockInternals

structure State (σ : Type) where
  toks : TokenList
  last : Token × Pos
  parsingSwitchExpr : Bool
  syntaxErrors : List ErrorMsg
  /-- The global variables of the mods. -/
  user : σ
  trace : List Note

/-! ## Operations -/

/-- The parsers that ask the mods first. -/
inductive Hooked where
  | expr
  | topExpr (body : Body)
  | exprNext (e : Expr) (pmax : Int)
  | functionExpr (secure : Bool)
  | braces (p1 : Pos)
  | parseBlockInternals
  | parseComplexType
  | parseComplexTypeNext (t : TypeHint)
  | parseClassField (tdecl : Bool)

@[reducible] def Hooked.Res : Hooked → Type
  | .parseBlockInternals => List Expr
  | .parseComplexType | .parseComplexTypeNext _ => TypeHint
  | .parseClassField _ => ClassField
  | .expr | .topExpr _ | .exprNext _ _ | .functionExpr _ | .braces _ => Expr

/-- The parsers that others call, and the loops. -/
inductive NT where
  | hook (h : Hooked)
  | expr'
  | secureExpr
  | exprNext' (e : Expr) (pmax : Int)
  | block (body : Body) (acc : List Expr)
  | parseBlockElt (body : Body)
  | block2Elt (ident : Constant) (p : Pos)
  | objDeclLoop (acc : List ObjectField)
  | arrayDeclLoop (acc : List Expr)
  | parseVarDecl (final : Bool)
  | parseVarDeclsNext (final : Bool) (vl : List EVar)
  | exprOrVar
  | parseSwitchCases (cases : List SwitchCase)
  | parseCatches (catches : List Catch)
  | parseNextParam (acc : List Expr) (p1 : Pos)
  | parseMeta
  | parseMetaName2 (p1 : Pos) (acc : List String)
  | parseMetaArgumentExpr
  | parseComplexTypeMaybeNamed (allowNamed : Bool)
  | parseComplexTypeInner (allowNamed : Bool)
  | parseComplexTypeAt (p : Pos)
  | parseComplexTypeNext' (t : TypeHint)
  | parseTypePath1 (p0 : Option Pos) (pack : List String)
  | parseTypePathOrConst (plt : Pos)
  | parseStructuralExtension
  | parseTypeAnonymous
  | parseFunParam
  | parseConstraintParam
  | parseCfRights
  | parseClassHerit
  | parseClassField' (tdecl : Bool)
  | parseClassFieldResume (acc : List ClassField) (tdecl : Bool)
  | resumeLoop (tdecl fdecl : Bool) (k : Nat)
  | plist (f : NT)
  | psepTail (sep : Token) (f : NT)
  | psepTrailing (sep : Token) (f : NT)

@[reducible] def NT.Res : NT → Type
  | .hook h => h.Res
  | .block _ _ | .arrayDeclLoop _ => List Expr
  | .objDeclLoop _ => List ObjectField
  | .parseVarDecl _ => EVar
  | .parseVarDeclsNext _ _ => List EVar
  | .parseSwitchCases _ => List SwitchCase × Option (Option Expr)
  | .parseCatches _ => List Catch
  | .parseNextParam _ _ => List Expr × Pos
  | .parseMeta => List MetadataEntry
  | .parseMetaName2 _ _ => List String × Pos
  | .parseComplexTypeMaybeNamed _ | .parseComplexTypeInner _ | .parseComplexTypeAt _
  | .parseComplexTypeNext' _ => TypeHint
  | .parseTypePath1 _ _ | .parseStructuralExtension => TypePath
  | .parseTypePathOrConst _ => TypeParamOrConst
  | .parseFunParam => FunArg
  | .parseConstraintParam => TypeParam
  | .parseCfRights => Access
  | .parseClassHerit => ClassFlag
  | .parseClassField' _ => ClassField
  | .parseTypeAnonymous | .parseClassFieldResume _ _ => List ClassField
  | .resumeLoop _ _ _ => Bool
  | .plist f | .psepTail _ f | .psepTrailing _ f => List f.Res
  | .expr' | .secureExpr | .exprNext' _ _ | .parseBlockElt _ | .block2Elt _ _ | .exprOrVar
  | .parseMetaArgumentExpr => Expr

namespace NT

abbrev expr : NT := .hook .expr
abbrev topExpr (body : Body) : NT := .hook (.topExpr body)
abbrev exprNext (e : Expr) (pmax : Int) : NT := .hook (.exprNext e pmax)
abbrev functionExpr (secure : Bool) : NT := .hook (.functionExpr secure)
abbrev braces (p1 : Pos) : NT := .hook (.braces p1)
abbrev parseBlockInternals : NT := .hook .parseBlockInternals
abbrev parseComplexType : NT := .hook .parseComplexType
abbrev parseComplexTypeNext (t : TypeHint) : NT := .hook (.parseComplexTypeNext t)
abbrev parseClassField (tdecl : Bool) : NT := .hook (.parseClassField tdecl)

end NT

/-- What the parsers of the grammar can do. -/
inductive Op where
  | peek
  | npeek (n : Nat)
  | junk
  | lastToken
  | addError (msg : ErrorMsg)
  | isParsingSwitchExpr
  | setParsingSwitchExpr (b : Bool)
  | handleXmlLiteral (p1 : Pos)
  | noteBinop (op : Binop) (e1 e2 : Expr)
  | nt (t : NT)
  /-- `try t with` the errors that `catches` selects. -/
  | recover (t : NT) (catches : Exc → Bool)

@[reducible] def Op.Res : Op → Type
  | .npeek _ => TokenList
  | .peek | .lastToken => Token × Pos
  | .isParsingSwitchExpr => Bool
  | .handleXmlLiteral _ => String
  | .nt t => t.Res
  | .recover t _ => Except Exc t.Res
  | .junk | .addError _ | .setParsingSwitchExpr _ | .noteBinop _ _ _ => Unit

abbrev sig : Sig := ⟨Op, Op.Res⟩

abbrev P (α : Type) := Prog sig Exc α

/-- What only the parsers that call mods can do: notes of those calls, and the mods' global variables. -/
inductive ModOp (σ : Type) where
  | note (e : Note)
  | getUser
  | setUser (x : σ)

variable {σ : Type}

@[reducible] def ModOp.Res : ModOp σ → Type
  | .getUser => σ
  | .note _ | .setUser _ => Unit

abbrev modSig (σ : Type) : Sig := ⟨ModOp σ, ModOp.Res⟩

/-- All operations. -/
abbrev fullSig (σ : Type) : Sig := sig.sum (modSig σ)

abbrev F (σ α : Type) := Prog (fullSig σ) Exc α

/-! ## What the primitive operations do -/

variable (cx : Settings)

/-- The stream goes on with `Eof` for ever. -/
def State.npeek (s : State σ) (n : Nat) : TokenList :=
  (s.toks ++ List.replicate n (Token.eof, cx.eofPos)).take n

def State.peek (s : State σ) : Token × Pos := s.toks.headD (Token.eof, cx.eofPos)

def State.junk (s : State σ) : State σ := { s with toks := s.toks.tail, last := s.peek cx }

def State.note (s : State σ) (e : Note) : State σ := { s with trace := s.trace ++ [e] }

/-- `try … with`, after what is tried. -/
def afterTry {α : Type} (catches : Exc → Bool) : Outcome Exc α → State σ → Outcome Exc (Except Exc α) × State σ
  | .ok a, s => (.ok (.ok a), s)
  | .fail, s => (.fail, s)
  | .error e, s => if catches e then (.ok (.error e), s.note .recovered) else (.error e, s)

def handleXml (p1 : Pos) (s : State σ) : Outcome Exc String × State σ :=
  match cx.lexXml p1 s.toks with
  | .ok (xml, toks) => (.ok xml, { s with toks := toks })
  | .error e => (.error e, s)

/-- The meanings, given the programs of the parsers. -/
def meaning (body : (t : NT) → F σ t.Res) : System (fullSig σ) Exc (State σ)
  | .inl .peek => .prim fun s => (.ok (s.peek cx), s)
  | .inl (.npeek n) => .prim fun s => (.ok (s.npeek cx n), s)
  | .inl .junk => .prim fun s => (.ok (), s.junk cx)
  | .inl .lastToken => .prim fun s => (.ok s.last, s)
  | .inl (.addError msg) => .prim fun s => (.ok (), { s with syntaxErrors := msg :: s.syntaxErrors })
  | .inl .isParsingSwitchExpr => .prim fun s => (.ok s.parsingSwitchExpr, s)
  | .inl (.setParsingSwitchExpr b) => .prim fun s => (.ok (), { s with parsingSwitchExpr := b })
  | .inl (.handleXmlLiteral p1) => .prim (handleXml cx p1)
  | .inl (.noteBinop op e1 e2) => .prim fun s => (.ok (), s.note (.binop op e1 e2))
  | .inl (.nt t) => .prog (body t)
  | .inl (.recover t catches) => .after (.inl (.nt t)) (afterTry catches)
  | .inr (.note e) => .prim fun s => (.ok (), s.note e)
  | .inr .getUser => .prim fun s => (.ok s.user, s)
  | .inr (.setUser x) => .prim fun s => (.ok (), { s with user := x })

end EvilHaxe.Grammar

/-! The small parsers of `grammar.mly` and the helpers of `parser.ml`: single tokens, optional and repeated
parts, syntax errors and the tests against the display position, names and metadata. -/

namespace EvilHaxe.Grammar

open EvilHaxe.Syntax EvilHaxe.Evil Lib

variable {α β : Type} (cx : Settings)

/-! ## Operations -/

def fail : P α := Prog.fail

def raise (e : Exc) : P α := Prog.raise e

/-- `match p with | [< r = p; s >] -> k r | …` with the other alternatives in `q`. -/
def alt (p : P α) (k : α → P β) (q : P β) : P β := Prog.alt p k q

/-- A component after the first. -/
def must (p : P α) : P α := Prog.orRaise p (.streamError "")

/-- `popt`. -/
def popt (p : P α) : P (Option α) := Prog.optional p

def nt (t : NT) : P t.Res := Prog.op (S := sig) (.nt t)

def recover (t : NT) (catches : Exc → Bool) : P (Except Exc t.Res) :=
  Prog.op (S := sig) (.recover t catches)

def peek : P (Token × Pos) := Prog.op (S := sig) .peek

def npeek (n : Nat) : P TokenList := Prog.op (S := sig) (.npeek n)

def junk : P Unit := Prog.op (S := sig) .junk

def lastToken : P (Token × Pos) := Prog.op (S := sig) .lastToken

def noteBinop (op : Binop) (e1 e2 : Expr) : P Unit := Prog.op (S := sig) (.noteBinop op e1 e2)

/-- `handle_xml_literal`, without the metadata it wraps the literal in. -/
def xmlLiteral (p1 : Pos) : P String := Prog.op (S := sig) (.handleXmlLiteral p1)

/-! ## Tokens -/

/-- `'(t,p)`. -/
def accept (t : Token) : P Pos := do
  let (t', p) ← peek
  if t' = t then do junk; pure p else fail

/-- `'(t,p2) when p.pmax = p2.pmin`. -/
def acceptAt (t : Token) (p : Pos) : P Pos := do
  let (t', p2) ← peek
  if t' = t ∧ p.pmax = p2.pmin then do junk; pure p2 else fail

/-- `serror`. -/
def serror : P α := raise (.streamError "")

/-- `syntax_error`; the position of the error is left out. -/
def syntaxError (msg : ErrorMsg) (v : α) : P α :=
  if cx.inDisplay then do Prog.op (S := sig) (.addError msg); pure v else raise (.error msg)

/-- `handle_stream_error`. -/
def handleStreamError (msg : String) : P Unit := do
  let (tk, _) ← peek
  syntaxError cx (if msg = "" then .unexpected tk else .streamError msg) ()

/-- `Stream.Error _`. -/
def isStreamError : Exc → Bool
  | .streamError _ => true
  | _ => false

/-- Junk `k` tokens. -/
def junks : Nat → P Unit
  | 0 => pure ()
  | k + 1 => do junk; junks k

/-- `plist`. -/
def plist (f : NT) : P (List f.Res) :=
  alt (nt f) (fun v => do let l ← must (nt (.plist f)); pure (v :: l)) (pure [])

/-- The loop of `psep_nonempty`. -/
def psepTail (sep : Token) (f : NT) : P (List f.Res) :=
  alt (accept sep)
    (fun _ => do
      let v ← must (nt f)
      let l ← must (nt (.psepTail sep f))
      pure (v :: l))
    (pure [])

/-- `psep_nonempty`. -/
def psepNonempty (sep : Token) (f : NT) : P (List f.Res) := do
  let v ← nt f
  let l ← nt (.psepTail sep f)
  pure (v :: l)

/-- `psep`. -/
def psep (sep : Token) (f : NT) : P (List f.Res) := alt (psepNonempty sep f) pure (pure [])

/-- `psep_trailing`. -/
def psepTrailing (sep : Token) (f : NT) : P (List f.Res) :=
  alt (nt f)
    (fun v =>
      alt (accept sep) (fun _ => do let l ← must (nt (.psepTrailing sep f)); pure (v :: l)) (pure [v]))
    (pure [])

/-! ## The display position -/

/-- `encloses_position`. -/
def enclosesPosition (target p : Pos) : Bool :=
  target.pmin ≠ -1 && target.pmax ≠ -1 && decide (p.pmin ≤ target.pmin) && decide (target.pmax ≤ p.pmax)

/-- `encloses_position_gt`. -/
def enclosesPositionGt (target p : Pos) : Bool :=
  target.pmin ≠ -1 && target.pmax ≠ -1 && decide (p.pmin ≤ target.pmin) && decide (target.pmax < p.pmax)

/-- `would_skip_display_position`. -/
def wouldSkipDisplayPosition (p1 : Pos) (plusOne : Bool) : P Bool :=
  if cx.inDisplayFile then do
    let (_, p2) ← peek
    pure (enclosesPosition cx.displayPosition ⟨p1.pmax + (if plusOne then 1 else 0), p2.pmax⟩)
  else pure false

/-- The test of `check_resume`. -/
def checkResume (p : Pos) : Bool :=
  cx.isCompletion && cx.inDisplayFile && decide (p.pmax = cx.displayPosition.pmin)

/-- The test of `check_resume_range`. -/
def checkResumeRange (p : Pos) : P Bool := do
  let (_, pnext) ← peek
  pure (cx.isCompletion && cx.inDisplayFile && decide (p.pmin < cx.displayPosition.pmin) &&
    decide (cx.displayPosition.pmax ≤ pnext.pmin))

/-- `check_completion`, without positions. -/
def checkCompletion (p0 : Pos) (plusOne : Bool) : P (Option (Option String)) := do
  match ← peek with
  | (.const (.ident name), p) =>
    if enclosesPosition cx.displayPosition p then do junk; pure (some (some name))
    else do
      let b ← wouldSkipDisplayPosition cx p0 plusOne
      pure (if b then some none else none)
  | _ => do
    let b ← wouldSkipDisplayPosition cx p0 plusOne
    pure (if b then some none else none)

/-- `check_signature_mark`. -/
def checkSignatureMark (e : Expr) (p1 p2 : Pos) : Expr :=
  if cx.isSignatureDisplay && enclosesPositionGt cx.displayPosition (punion p1 p2) then
    .eDisplay e .dkMarked
  else e

/-- `magic_type_path`, as a type. -/
def magicType : TypeHint := .ctPath (.mk [] "" [] none)

/-! ## Names and punctuation -/

/-- `ident`. -/
def ident : P (String × Pos) := do
  match ← peek with
  | (.const (.ident i), p) => do junk; pure (i, p)
  | _ => fail

/-- `dollar_ident`. -/
def dollarIdent : P (String × Pos) := do
  match ← peek with
  | (.const (.ident i), p) => do junk; pure (i, p)
  | (.dollar i, p) => do junk; pure ("$" ++ i, p)
  | _ => fail

/-- `dollar_ident_macro`. -/
def dollarIdentMacro (pack : List String) : P (String × Pos) := do
  match ← peek with
  | (.const (.ident i), p) => do junk; pure (i, p)
  | (.dollar i, p) => do junk; pure ("$" ++ i, p)
  | (.kwd .kwMacro, p) => if pack = [] then fail else do junk; pure ("macro", p)
  | (.kwd .kwExtern, p) => if pack = [] then fail else do junk; pure ("extern", p)
  | (.kwd .kwFunction, p) => if pack = [] then fail else do junk; pure ("function", p)
  | _ => fail

/-- `property_ident`. -/
def propertyIdent : P String := do
  match ← peek with
  | (.const (.ident i), _) => do junk; pure i
  | (.kwd .kwDynamic, _) => do junk; pure "dynamic"
  | (.kwd .kwDefault, _) => do junk; pure "default"
  | (.kwd .kwNull, _) => do junk; pure "null"
  | _ => fail

/-- `questionable_dollar_ident`. -/
def questionableDollarIdent : P (Bool × String) := do
  let po ← popt (accept .question)
  let (name, p) ← dollarIdent
  match po with
  | none => pure (false, name)
  | some p' =>
    if p.pmin ≠ p'.pmax then
      syntaxError cx (.custom ("Invalid usage of ?, use ?" ++ name ++ " instead")) ()
    pure (true, name)

/-- `semicolon`. -/
def semicolon : P Pos := do
  let (t, p) ← lastToken
  alt (accept .semicolon) pure
    (if t = .brClose then pure p
    else do
      let (_, p) ← peek
      syntaxError cx .missingSemicolon p)

/-- The semicolon that may, but need not, follow an XML literal. -/
def optSemicolon : P Unit := do let _ ← popt (accept .semicolon)

/-- `expect_unless_resume_p`; `text` is the token's text. -/
def expectUnlessResumeP (t : Token) (text : String) : P Pos :=
  alt (accept t) pure (do
    let (_, p) ← peek
    syntaxError cx (.expected [text]) p)

/-- `check_redundant_var`. -/
def checkRedundantVar : P Unit :=
  alt (accept (.kwd .kwVar))
    (fun _ => syntaxError cx (.custom "`final var` is not supported, use `final` instead") ()) (pure ())

/-- `no_keyword`. -/
def noKeyword (what : String) : P α := do
  match ← peek with
  | (.kwd k, _) => raise (.error (.custom ("Keyword " ++ sKeyword k ++ " cannot be used as " ++ what)))
  | _ => fail

/-- `type_name`. -/
def typeName : P String := do
  match ← peek with
  | (.const (.ident name), _) => do
    junk
    if isLowerIdent name then
      syntaxError cx (.custom "Type name should start with an uppercase letter") name
    else pure name
  | (.dollar name, _) => do junk; pure ("$" ++ name)
  | _ => fail

/-! ## Metadata -/

/-- The name of `Meta.HxCompletion`. -/
def hxCompletion : String := ":hx.completion"

def isHxCompletion : MetadataEntry → Bool
  | .mk name _ => name = hxCompletion

/-- `string_list_of_expr_path_raise` succeeds. -/
def isExprPath : Expr → Bool
  | .eConst (.ident _) => true
  | .eField e _ _ => isExprPath e
  | _ => false

/-- `parse_meta_argument_expr`; `type_path` ends the parse for the display server. -/
def parseMetaArgumentExpr : P Expr := do
  match ← nt .expr with
  | .eDisplay e1 .dkDot => if isExprPath e1 then raise .displayException else pure (.eDisplay e1 .dkDot)
  | e => pure e

/-- `parse_meta_params`. -/
def parseMetaParams (pname : Pos) : P (List Expr) :=
  alt (acceptAt .pOpen pname)
    (fun _ => do
      let params ← must (nt (.psepTrailing .comma .parseMetaArgumentExpr))
      let _ ← expectUnlessResumeP cx .pClose ")"
      pure params)
    (pure [])

/-- `parse_meta_name_2`: the parts of the name, the last first. -/
def parseMetaName2 (p1 : Pos) (acc : List String) : P (List String × Pos) := do
  let (part, p) ← match ← peek with
    | (.const (.ident i), p) => if p.pmin = p1.pmax then do junk; pure (i, p) else fail
    | (.kwd k, p) => if p.pmin = p1.pmax then do junk; pure (sKeyword k, p) else fail
    | _ => fail
  alt (accept .dot)
    (fun pdot => do
      let (name, p2) ← must (nt (.parseMetaName2 pdot (part :: acc)))
      pure (name, punion p p2))
    (pure (part :: acc, punion p1 p))

/-- `rev_concat "."`. -/
def revConcat (sl : List String) : String := String.intercalate "." sl.reverse

/-- `parse_meta_name`. -/
def parseMetaName (p1 : Pos) : P (String × Pos) :=
  alt (acceptAt .dblDot p1)
    (fun p =>
      alt (nt (.parseMetaName2 p [])) (fun (name, p2) => pure (":" ++ revConcat name, p2))
        (if checkResume cx p then pure (hxCompletion, p) else fail))
    (do
      let (name, p2) ← nt (.parseMetaName2 p1 [])
      pure (revConcat name, p2))

/-- `parse_meta_entry`. -/
def parseMetaEntry : P MetadataEntry := do
  let p1 ← accept .atSign
  alt (parseMetaName cx p1)
    (fun (name, p) => do
      let params ← must (parseMetaParams cx p)
      pure (.mk name params))
    (if checkResume cx p1 then pure (.mk hxCompletion []) else serror)

/-- `parse_meta`. -/
def parseMeta : P (List MetadataEntry) :=
  alt (parseMetaEntry cx) (fun entry => do let l ← nt .parseMeta; pure (entry :: l)) (pure [])

end EvilHaxe.Grammar
