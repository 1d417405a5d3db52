/-
`parser.ml`: the errors of the parser and the functions that combine expressions
(`make_binop`, `make_unop`, `make_meta`).
-/
import EvilHaxe.Syntax.Ast

namespace EvilHaxe.Syntax

/-! ## Errors -/

/-- `Parser.error_msg`; the texts of `Expected` are the texts of its tokens. -/
inductive ErrorMsg where
  | unexpected (t : Token)
  | duplicateDefault
  | missingSemicolon
  | unclosedConditional
  | unimplemented
  | missingType
  | expected (sl : List String)
  | streamError (s : String)
  | custom (s : String)
  deriving DecidableEq, Repr

/-- What a parse can raise: the two exceptions of `Stream`, `Parser.Error`, the exceptions
that end a parse for the display server (`TypePath`, `SyntaxCompletion`), the failures of the macro
interpreter (`Invalid_expr`, a value of the wrong kind, an error thrown by a mod), and those of the
compiler itself (`Failure` with its text, `die`). -/
inductive Exc where
  | failure
  | streamError (msg : String)
  | error (msg : ErrorMsg)
  | displayException
  | invalidExpr
  | unexpectedValue (expected : String)
  | modError (msg : String)
  | ocamlFailure (msg : String)
  | ice
  deriving DecidableEq, Repr

/-! ## Operators -/

/-- `precedence`: the level of an operator (lower levels bind tighter) and whether it
associates to the left. -/
def precedence : Binop → Nat × Bool
  | .opIn => (0, false)
  | .opMod => (1, true)
  | .opMult | .opDiv => (2, true)
  | .opAdd | .opSub => (3, true)
  | .opShl | .opShr | .opUShr => (4, true)
  | .opOr | .opAnd | .opXor => (5, true)
  | .opNullCoal => (6, true)
  | .opEq | .opNotEq | .opGt | .opLt | .opGte | .opLte => (7, true)
  | .opInterval => (8, true)
  | .opBoolAnd => (9, true)
  | .opBoolOr => (10, true)
  | .opArrow => (11, false)
  | .opAssign | .opAssignOp _ => (12, false)

/-- `is_higher_than_ternary`. -/
def isHigherThanTernary : Binop → Bool
  | .opAssign | .opAssignOp _ | .opArrow => false
  | _ => true

/-- `swap`. -/
def swap (op1 op2 : Binop) : Bool :=
  (precedence op1).2 && decide ((precedence op1).1 ≤ (precedence op2).1)

/-- `make_binop`. -/
def makeBinop (op : Binop) (e : Expr) : Expr → Expr
  | .eBinop op' e1 e2 =>
    if swap op op' then .eBinop op' (makeBinop op e e1) e2
    else .eBinop op e (.eBinop op' e1 e2)
  | .eTernary e1 e2 e3 =>
    if isHigherThanTernary op then .eTernary (makeBinop op e e1) e2 e3
    else .eBinop op e (.eTernary e1 e2 e3)
  | e2 => .eBinop op e e2

/-- The local `neg` of `make_unop`, on the text of a number. -/
def negText (s : String) : String :=
  match s.toList with
  | '-' :: cs => String.ofList cs
  | _ => "-" ++ s

/-- `make_unop`. -/
def makeUnop (op : Unop) : Expr → Expr
  | .eBinop bop e e2 => .eBinop bop (makeUnop op e) e2
  | .eTernary e1 e2 e3 => .eTernary (makeUnop op e1) e2 e3
  | .eIs e t => .eIs (makeUnop op e) t
  | .eConst (.int i suffix) =>
    if op = .neg then .eConst (.int (negText i) suffix)
    else .eUnop op .flagPrefix (.eConst (.int i suffix))
  | .eConst (.float j suffix) =>
    if op = .neg then .eConst (.float (negText j) suffix)
    else .eUnop op .flagPrefix (.eConst (.float j suffix))
  | e => .eUnop op .flagPrefix e

/-- `make_meta`. -/
def makeMeta (name : String) (params : List Expr) : Expr → Expr
  | .eBinop .opAssign e e2 => .eMeta (.mk name params) (.eBinop .opAssign e e2)
  | .eBinop (.opAssignOp op) e e2 => .eMeta (.mk name params) (.eBinop (.opAssignOp op) e e2)
  | .eBinop bop e e2 => .eBinop bop (makeMeta name params e) e2
  | .eTernary e1 e2 e3 => .eTernary (makeMeta name params e1) e2 e3
  | e => .eMeta (.mk name params) e

end EvilHaxe.Syntax
