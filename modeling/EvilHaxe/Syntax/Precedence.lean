/-
`precedence` and `make_binop` against the library of operator trees: on chains without `=>` and
`in` the table is one whose loosest level associates to the right, and `make_binop` is the
insertion of the library, so that combining the operands of a chain from the right gives its one
tree that respects the table. A ternary after the chain is where the code stops being that simple.
-/
import EvilHaxe.Lib.OperatorTree
import EvilHaxe.Syntax.Parser

namespace EvilHaxe.Syntax

open Lib

/-! ## The table -/

/-- The operators of a chain. -/
abbrev ChainOp := {op : Binop // op ≠ .opArrow ∧ op ≠ .opIn}

theorem precedence_uniform (o o' : ChainOp) (h : (precedence o.1).1 = (precedence o'.1).1) :
    (precedence o.1).2 = (precedence o'.1).2 := by
  obtain ⟨o, ho⟩ := o
  obtain ⟨o', ho'⟩ := o'
  revert h
  cases o <;> cases o' <;> simp [precedence] at ho ho' ⊢

theorem precedence_le (op : Binop) : (precedence op).1 ≤ 12 := by
  cases op <;> simp [precedence]

theorem precedence_right (o : ChainOp) (h : (precedence o.1).2 = false) :
    (precedence o.1).1 = 12 := by
  obtain ⟨o, ho⟩ := o
  revert h
  cases o <;> simp [precedence] at ho ⊢

/-- The table of `precedence` on chains. -/
def fixity : Fixity ChainOp where
  level o := (precedence o.1).1
  left o := (precedence o.1).2
  uniform h := precedence_uniform _ _ h
  loosest o' h := (precedence_right _ h).symm ▸ precedence_le o'.1

/-! ## `make_binop` is insertion -/

/-- A tree of operators as an expression. -/
def toExpr : OpTree ChainOp Expr → Expr
  | .leaf e => e
  | .node op l r => .eBinop op.1 (toExpr l) (toExpr r)

/-- `make_binop` does not look inside the expression. -/
def IsOperand : Expr → Prop
  | .eBinop _ _ _ => False
  | .eTernary _ _ _ => False
  | _ => True

theorem makeBinop_operand {e2 : Expr} (h : IsOperand e2) (op : Binop) (e : Expr) :
    makeBinop op e e2 = .eBinop op e e2 := by
  cases e2 <;> first | rfl | exact h.elim

/-- The spine of the right operand that `make_binop` descends is that of the tree, down to its first
operand. -/
theorem makeBinop_toExpr (op : ChainOp) (e : Expr) {t : OpTree ChainOp Expr}
    (h : IsOperand t.first) : makeBinop op.1 e (toExpr t) = toExpr (t.insert fixity op e) := by
  induction t with
  | leaf b => exact makeBinop_operand h op.1 e
  | node op' l r ihl _ =>
    have hs : swap op.1 op'.1 = OpTree.swaps fixity op op' := rfl
    simp only [toExpr, makeBinop, OpTree.insert, hs]
    split
    · simp only [toExpr, ihl h]
    · rfl

/-- What the right-recursive parse makes of a chain whose last operand is continued by `last`. -/
def combine (last : Expr → Expr) (e : Expr) : List (ChainOp × Expr) → Expr
  | [] => last e
  | (op, e') :: s => makeBinop op.1 e (combine last e' s)

theorem combine_id : ∀ (e : Expr) (s : List (ChainOp × Expr)), IsOperand e →
    (∀ p ∈ s, IsOperand p.2) → combine id e s = toExpr (OpTree.build fixity e s)
  | e, [], _, _ => rfl
  | e, (op, e') :: s, _, hs => by
    have h' : IsOperand e' := hs (op, e') (List.mem_cons_self ..)
    rw [combine, combine_id e' s h' fun p hp => hs p (List.mem_cons_of_mem _ hp)]
    exact makeBinop_toExpr op e (by rwa [OpTree.first_build])

/-! ## A ternary after the chain -/

/-- Without assignments the ternary takes the whole chain as its condition. -/
theorem combine_ternary (e2 e3 : Expr) : ∀ (e : Expr) (s : List (ChainOp × Expr)),
    IsOperand e → (∀ p ∈ s, IsOperand p.2) → (∀ p ∈ s, isHigherThanTernary p.1.1 = true) →
    combine (.eTernary · e2 e3) e s = .eTernary (toExpr (OpTree.build fixity e s)) e2 e3
  | e, [], _, _, _ => rfl
  | e, (op, e') :: s, _, hs, ht => by
    have h' : IsOperand e' := hs (op, e') (List.mem_cons_self ..)
    have htop : isHigherThanTernary op.1 = true := ht (op, e') (List.mem_cons_self ..)
    rw [combine, combine_ternary e2 e3 e' s h' (fun p hp => hs p (List.mem_cons_of_mem _ hp))
      fun p hp => ht p (List.mem_cons_of_mem _ hp)]
    simp only [makeBinop, htop, if_true, OpTree.build]
    rw [makeBinop_toExpr op e (by rwa [OpTree.first_build])]

/-- With assignments the ternary takes what follows the last one, and becomes its right operand. -/
theorem combine_ternary_assign (e2 e3 : Expr) {op : ChainOp} (hop : isHigherThanTernary op.1 = false)
    {e' : Expr} {post : List (ChainOp × Expr)} (he' : IsOperand e') (hpost : ∀ p ∈ post, IsOperand p.2)
    (htight : ∀ p ∈ post, isHigherThanTernary p.1.1 = true) :
    ∀ (e : Expr) (pre : List (ChainOp × Expr)), IsOperand e → (∀ p ∈ pre, IsOperand p.2) →
      combine (.eTernary · e2 e3) e (pre ++ (op, e') :: post) =
        toExpr (OpTree.build fixity e
          (pre ++ [(op, .eTernary (toExpr (OpTree.build fixity e' post)) e2 e3)]))
  | e, [], _, _ => by
    simp only [List.nil_append, combine, combine_ternary e2 e3 e' post he' hpost htight, makeBinop, hop]
    rfl
  | e, (o, b) :: pre, _, hs => by
    have hb : IsOperand b := hs (o, b) (List.mem_cons_self ..)
    rw [List.cons_append, combine, combine_ternary_assign e2 e3 hop he' hpost htight b pre hb
      fun p hp => hs p (List.mem_cons_of_mem _ hp)]
    exact makeBinop_toExpr o e (by rwa [OpTree.first_build])

end EvilHaxe.Syntax
