/-
The parsers as one system: those that call the mods first (`evilTokenStream.ml`, the callbacks of
`evilMacro.ml` and the `EVIL HAXE change`s of `grammar.mly`), then the table of all of them.
-/
import EvilHaxe.Grammar.Expr
import EvilHaxe.Evil.Transport

namespace EvilHaxe.Grammar

open EvilHaxe.Syntax EvilHaxe.Evil Lib

variable {σ : Type}

/-! ## Callbacks -/

/-- What a callback can ask for: the methods of its token stream, and the mods' global variables.
Positions of syntax trees are left out, but for the end of the one that `parsePostExpr` goes on from. -/
inductive ApiOp (σ : Type) where
  | peek
  | consume
  | nextExpr
  | parsePostExpr (e : Expr) (pmax : Int)
  | nextType
  | parsePostType (t : TypeHint)
  | parseClassFields
  | semicolon
  | parseBlockInternals
  | isParsingSwitchExpr
  | getUser
  | setUser (x : σ)

@[reducible] def ApiOp.Res : ApiOp σ → Type
  | .peek => Token × Pos
  | .nextExpr | .parsePostExpr _ _ => Expr
  | .nextType | .parsePostType _ => TypeHint
  | .parseClassFields => List ClassField
  | .semicolon => Pos
  | .parseBlockInternals => List Expr
  | .isParsingSwitchExpr => Bool
  | .getUser => σ
  | .consume | .setUser _ => Unit

abbrev apiSig (σ : Type) : Sig := ⟨ApiOp σ, ApiOp.Res⟩

/-- The body of a callback. -/
abbrev Callback (σ α : Type) := Prog (apiSig σ) Exc α

/-- What a mod supplies for a hook; the last two hooks are not called by these parsers. -/
@[reducible] def CallbackType (σ : Type) : HookType → Type
  | .onExpr => Bool → Callback σ (Option Expr)
  | .onAfterExpr => Expr → Int → Callback σ (Option Expr)
  | .onFunctionExpr => Callback σ (Option Expr)
  | .onBlockStart => Callback σ Unit
  | .onAfterBlockExpr => Expr → Callback σ (Option Expr)
  | .onType => Callback σ (Option TypeHint)
  | .onAfterType => TypeHint → Callback σ (Option TypeHint)
  | .onClassField => Bool → Callback σ (Option ClassField)
  | .onTypeDeclaration | .tokenTransmuter => Unit

abbrev Hooks (σ : Type) := GlobalParserHooks (CallbackType σ)

/-- What a value becomes when a mod hands it to the compiler. -/
def decode {α : Type} (recode : α → Except Exc α) : Option α → P (Option α)
  | none => pure none
  | some x => ofExcept ((recode x).map some)

/-- A parser that needs no mods. -/
def plain {α : Type} (p : P α) : F σ α := Prog.inl (S := sig) (T := modSig σ) p

def modOp (o : ModOp σ) : F σ o.Res := Prog.op (S := fullSig σ) (.inr o)

def note (e : Note) : F σ Unit := modOp (.note e)

variable (cx : Settings)

/-- `make_token_stream_for_haxe`. -/
def tokenStream : (o : ApiOp σ) → F σ o.Res
  | .peek => plain peek
  | .consume => plain junk
  | .nextExpr => plain secureExpr
  | .parsePostExpr e pmax => plain do
    let e ← ofExcept (recodeExpr e)
    exprNext e pmax
  | .nextType => plain (nt .parseComplexType)
  | .parsePostType t => plain do
    let t ← ofExcept (recodeType t)
    nt (.parseComplexTypeNext t)
  | .parseClassFields => plain (parseClassFields cx false)
  | .semicolon => plain (semicolon cx)
  | .parseBlockInternals => plain (nt .parseBlockInternals)
  | .isParsingSwitchExpr => plain (Prog.op (S := sig) .isParsingSwitchExpr)
  | .getUser => modOp .getUser
  | .setUser x => modOp (.setUser x)

/-- A callback, called by a parser. -/
def callback {α : Type} (h : Callback σ α) : F σ α :=
  Prog.interp (S := apiSig σ) (T := fullSig σ) (tokenStream cx) h

/-- A callback with a result. -/
def decoded {α : Type} (recode : α → Except Exc α) (h : Callback σ (Option α)) : F σ (Option α) := do
  let r ← callback cx h
  plain (decode recode r)

/-! ## Hooks -/

/-- `call_hooks`; `cut` is noted where it leaves out callbacks. -/
def callHooks {α : Type} (cut : F σ Unit) : List (F σ (Option α)) → F σ (Option α)
  | [] => pure none
  | h :: l => do
    match ← h with
    | none => callHooks cut l
    | some r => do
      if !l.isEmpty then cut
      pure (some r)

/-- `call_hooks_unit`. -/
def callHooksUnit : List (F σ Unit) → F σ Unit
  | [] => pure ()
  | h :: l => do
    h
    callHooksUnit l

/-- The callbacks of a hook that takes the place of a parser. -/
def hooked {α : Type} (recode : α → Except Exc α) (hs : List (Callback σ (Option α))) (p : P α) : F σ α := do
  match ← callHooks (pure ()) (hs.map (decoded cx recode)) with
  | some r => pure r
  | none => plain p

/-- The calls of block callbacks, with notes of each call and of those that fail. -/
def blockCalls {α : Type} (e : Nat → Note) (hs : List (F σ α)) : List (F σ α) :=
  hs.mapIdx fun i h => do
    note (e i)
    h.alt pure (do note .blockHookFailed; .fail)

variable (hooks : Hooks σ)

/-- `on_block_start`, for the block that opens at `b`. -/
def onBlockStart (b : Pos) : F σ Unit := do
  note (.blockStart b)
  callHooksUnit (blockCalls (.blockHook · b) (hooks.onBlock.map (callback cx)))

/-- The call of the `on_block_next` hooks for the block `e` that opened at `b`. -/
def onBlockNext (b : Pos) (e : Expr) : F σ (Option Expr) := do
  note (.blockNext b)
  callHooks (note .blockNextCut)
    (blockCalls (.blockNextHook · b) (hooks.onBlockNext.map fun h => decoded cx recodeExpr (h e)))

/-! ## The parsers that call the mods -/

/-- `on_block1_parse_block`, as `parseBlockInternals` calls it. -/
def parseBlockInternals : F σ (List Expr) := do
  note .blockInternals
  let (_, b) ← plain lastToken
  onBlockStart cx hooks b
  plain (nt (.block .braces []))

/-- The statements of a block that opens at `b`. -/
def blockOf (b : Pos) (p : P (List Expr)) : F σ Expr := do
  onBlockStart cx hooks b
  let el ← plain p
  pure (.eBlock el)

/-- `block2`. -/
def block2 (b : Pos) (name : String) (qs : QuoteStatus) (c : Constant) (p : Pos) : F σ Expr :=
  (plain (accept .dblDot)).alt
    (fun _ => plain do
      let e ← secureExpr
      parseObjDecl name qs e)
    (blockOf cx hooks b (blockWithPos' cx .braces [] (.block2Elt c p) rfl))

/-- `block1`. -/
def block1 (b : Pos) : F σ Expr :=
  (plain dollarIdent).alt (fun (name, p) => block2 cx hooks b name .noQuotes (.ident name) p) do
    match ← plain peek with
    | (.const (.string name qs), p) => do
      plain junk
      block2 cx hooks b name .doubleQuotes (.string name qs) p
    | _ => blockOf cx hooks b (nt (.block .braces []))

/-- `expr'` after `{`. -/
def braces (p1 : Pos) : F σ Expr :=
  (block1 cx hooks p1).alt
    (fun b => do
      plain (alt (accept .brClose) (fun _ => pure ()) (syntaxError cx (.expected ["\x7d"]) ()))
      match b with
      | .eObjectDecl fl => plain do
        let (_, p2) ← lastToken
        exprNext (.eObjectDecl fl) p2.pmax
      | .eBlock el => do
        match ← onBlockNext cx hooks p1 (.eBlock el) with
        | some hookExpr => pure hookExpr
        | none => pure (.eBlock el)
      | b => pure b)
    (plain (if checkResume cx p1 then pure (.eDisplay (.eObjectDecl []) .dkStructure) else serror))

/-- `expr_next` without callbacks that have a result. -/
def tryExprNext' (e1 : Expr) (pmax : Int) : P Expr := do
  match ← recover (.exprNext' e1 pmax) fun e => cx.inDisplay && isStreamError e with
  | .ok e => pure e
  | .error (.streamError msg) => do
    handleStreamError cx msg
    pure e1
  | .error e => raise e

/-- The programs of the parsers that ask the mods. -/
def hookBody : (h : Hooked) → F σ h.Res
  | .expr => hooked cx recodeExpr (hooks.onExpr.map fun h => h false) (nt .expr')
  | .topExpr _ => hooked cx recodeExpr (hooks.onExpr.map fun h => h true) (nt .expr')
  | .exprNext e pmax =>
    hooked cx recodeExpr (hooks.onExprNext.map fun h => h e pmax) (tryExprNext' cx e pmax)
  | .functionExpr secure =>
    hooked cx recodeExpr hooks.onFunctionExpr (if secure then secureExpr else expr)
  | .braces p1 => braces cx hooks p1
  | .parseBlockInternals => parseBlockInternals cx hooks
  | .parseComplexType => hooked cx recodeType hooks.onType parseComplexType'
  | .parseComplexTypeNext t =>
    hooked cx recodeType (hooks.onAfterType.map fun h => h t) (nt (.parseComplexTypeNext' t))
  | .parseClassField tdecl =>
    hooked cx recodeField (hooks.onClassField.map fun h => h tdecl) (nt (.parseClassField' tdecl))

/-- The programs of all parsers, given those that ask the mods. -/
def body (hookBody : (h : Hooked) → F σ h.Res) : (t : NT) → F σ t.Res
  | .hook h => hookBody h
  | .expr' => plain (expr' cx)
  | .secureExpr => plain (secureExpr' cx)
  | .exprNext' e pmax => plain (exprNext' cx e pmax)
  | .block b acc => plain (block cx b acc)
  | .parseBlockElt b => plain (parseBlockElt cx b)
  | .block2Elt ident p => plain (block2Elt cx ident p)
  | .objDeclLoop acc => plain (objDeclLoop cx acc)
  | .arrayDeclLoop acc => plain (arrayDeclLoop cx acc)
  | .parseVarDecl final => plain (parseVarDecl cx final)
  | .parseVarDeclsNext final vl => plain (parseVarDeclsNext cx final vl)
  | .exprOrVar => plain (exprOrVar cx)
  | .parseSwitchCases cases => plain (parseSwitchCases cx cases)
  | .parseCatches catches => plain (parseCatches cx catches)
  | .parseNextParam acc p1 => plain (parseNextParam cx acc p1)
  | .parseMeta => plain (parseMeta cx)
  | .parseMetaName2 p1 acc => plain (parseMetaName2 p1 acc)
  | .parseMetaArgumentExpr => plain parseMetaArgumentExpr
  | .parseComplexTypeMaybeNamed b => plain (parseComplexTypeMaybeNamed cx b)
  | .parseComplexTypeInner b => plain (parseComplexTypeInner cx b)
  | .parseComplexTypeAt p => plain (parseComplexTypeAt cx p)
  | .parseComplexTypeNext' t => plain (parseComplexTypeNext' cx t)
  | .parseTypePath1 p0 pack => plain (parseTypePath1 cx p0 pack)
  | .parseTypePathOrConst plt => plain (parseTypePathOrConst cx (parseArrayDecl cx) plt)
  | .parseStructuralExtension => plain (parseStructuralExtension cx)
  | .parseTypeAnonymous => plain (parseTypeAnonymous cx)
  | .parseFunParam => plain (parseFunParam cx)
  | .parseConstraintParam => plain (parseConstraintParam cx)
  | .parseCfRights => plain parseCfRights
  | .parseClassHerit => plain (parseClassHerit cx)
  | .parseClassField' tdecl => plain (parseClassField' cx tdecl)
  | .parseClassFieldResume acc tdecl => plain (parseClassFieldResume cx acc tdecl)
  | .resumeLoop tdecl fdecl k => plain (resumeLoop tdecl fdecl k)
  | .plist f => plain (plist f)
  | .psepTail sep f => plain (psepTail sep f)
  | .psepTrailing sep f => plain (psepTrailing sep f)

/-- The grammar with the installed mods. -/
def grammar : System (fullSig σ) Exc (State σ) := meaning cx (body cx (hookBody cx hooks))

/-- The outcome of a parser and the state it leaves, if it ends. -/
def parse (t : NT) (s : State σ) : Option (Outcome Exc t.Res × State σ) :=
  exec (grammar cx hooks) (.inl (.nt t)) s

end EvilHaxe.Grammar
