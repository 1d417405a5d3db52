/-
The mod `pipe`: what it makes of one `|>`, and of a chain of them. The parser is right recursive, so the tail of a chain is
a call already when its head arrives.
-/
import EvilHaxe.Evil.TokenStream
import EvilHaxe.Eval.Array

namespace EvilHaxe.Mods

open EvilHaxe.Syntax EvilHaxe.Evil EvilHaxe.Grammar EvilHaxe.Eval

namespace Pipe

def pipeForwardMetaName : String := "--pipe"

def wrapOperatorMeta (e : Expr) : Expr := .eMeta (.mk pipeForwardMetaName []) e

def makePipeExpr (e1 : Expr) : Expr → Except Exc Expr
  | .eMeta (.mk n _) e2i =>
    if n = pipeForwardMetaName then
      match e2i with
      | .eCall ecall eparams =>
        if h : eparams ≠ [] then do
          let last ← makePipeExpr e1 (eparams.getLast h)
          pure (.eCall ecall (ListArray.slice eparams 0 (some (eparams.length - 2)) ++ [last]))
        else pure (.eCall ecall [e1])
      | _ => .error (.modError ("@" ++ pipeForwardMetaName ++ " meta should only surrond ECall"))
    else makePipeExpr e1 e2i
  | .eCall e2call e2param =>
    if e2param ≠ [] then pure (wrapOperatorMeta (.eCall e2call (e2param ++ [e1])))
    else pure (wrapOperatorMeta (.eCall (.eCall e2call e2param) [e1]))
  | e2 => pure (wrapOperatorMeta (.eCall e2 [e1]))
termination_by e2 => sizeOf e2
decreasing_by
  · have := List.sizeOf_lt_of_mem (List.getLast_mem h)
    simp only [Expr.eMeta.sizeOf_spec, Expr.eCall.sizeOf_spec]
    omega
  · simp only [Expr.eMeta.sizeOf_spec]
    omega

variable {σ : Type}

def onAfterExpr (expr : Expr) : Callback σ (Option Expr) := do
  match (← TokenStream.peek).1 with
  | .binop .opOr => do
    TokenStream.consume
    match (← TokenStream.peek).1 with
    | .binop .opGt => do
      TokenStream.consume
      let e2 ← TokenStream.nextExpr
      match makePipeExpr expr e2 with
      | .ok e => pure (some e)
      | .error e => Lib.Prog.raise e
    | _ => do
      let e2 ← TokenStream.nextExpr
      pure (some (.eBinop .opOr expr e2))
  | _ => pure none

/-- What `init` adds. -/
def mod : ParserMod (CallbackType σ) := { onExprNext := some fun expr _ => onAfterExpr expr }

/-- The hooks of a file with this mod alone. -/
def hooks : Hooks σ := applyMod mod initialHooks

end Pipe

end EvilHaxe.Mods
