/-
Chains of operands and binary operators, from tokens to trees: `expr` reads an operand and goes on with
`expr_next`, whose combination from the right is that of `Syntax.Precedence`.
-/
import EvilHaxe.Grammar.Runs
import EvilHaxe.Syntax.Precedence

namespace EvilHaxe.Grammar

open EvilHaxe.Syntax EvilHaxe.Evil Lib

variable {σ : Type} {cx : Settings} {hooks : Hooks σ}

/-! ## Operands -/

/-- On `ts` before `rest` the parser returns `r` and leaves `rest`. -/
def Parses (cx : Settings) (hooks : Hooks σ) (t : NT) (ts rest : TokenList) (r : t.Res) : Prop :=
  ∀ s : State σ, s.toks = ts ++ rest → ∃ s', parse cx hooks t s = some (.ok r, s') ∧ s'.toks = rest

/-- The tokens that are an expression of their own. -/
def atom : Token → Option Expr
  | .const c => some (.eConst c)
  | .kwd .kwThis => some (.eConst (.ident "this"))
  | .kwd .kwTrue => some (.eConst (.ident "true"))
  | .kwd .kwFalse => some (.eConst (.ident "false"))
  | .kwd .kwNull => some (.eConst (.ident "null"))
  | .dollar v => some (.eConst (.ident ("$" ++ v)))
  | _ => none

/-- Atoms, and expressions in parentheses. -/
inductive Operand (cx : Settings) (hooks : Hooks σ) : TokenList → Expr → Prop where
  | atom {t : Token} {p : Pos} {e : Expr} (h : atom t = some e) : Operand cx hooks [(t, p)] e
  | parenthesis {ts : TokenList} {p p2 : Pos} {e : Expr}
      (h : ∀ rest, Parses cx hooks .expr ts ((.pClose, p2) :: rest) e) :
      Operand cx hooks ((.pOpen, p) :: ts ++ [(.pClose, p2)]) (.eParenthesis e)

theorem Operand.isOperand {ts : TokenList} {e : Expr} (h : Operand cx hooks ts e) : IsOperand e := by
  cases h with
  | @atom t _ _ h =>
    unfold Grammar.atom at h
    split at h <;> cases h <;> exact trivial
  | parenthesis _ => exact trivial

/-- Without metadata `expr'` goes by its first token. -/
theorem runs_expr'_primary {s : State σ} (h : (s.peek cx).1 ≠ .atSign) :
    runs cx hooks (expr' cx) s = runs cx hooks (primary cx) s := by
  simp [expr', parseMetaEntry, h]

theorem parse_expr_primary (hx : hooks.onExpr = []) {s : State σ} (h : (s.peek cx).1 ≠ .atSign) :
    parse cx hooks .expr s = runs cx hooks (primary cx) s := by
  rw [parse_hook, hookBody, hx, List.map_nil, fullRuns_hooked_nil]
  exact (Prog.run_op _ s).trans ((parse_plain s rfl).trans (runs_expr'_primary h))

/-- No expression starts with `)` or `?`. -/
theorem head_of_parse_expr (hx : hooks.onExpr = []) {s s' : State σ} {e : Expr}
    (h : parse cx hooks .expr s = some (.ok e, s')) :
    (s.peek cx).1 ≠ .pClose ∧ (s.peek cx).1 ≠ .question := by
  constructor <;>
  · intro ht
    rw [parse_expr_primary hx (by rw [ht]; exact Token.noConfusion)] at h
    simp [primary, ht] at h

/-- `expr` reads an operand and goes on with `expr_next`. -/
theorem Operand.parse_expr {ts : TokenList} {e : Expr} (h : Operand cx hooks ts e) (hx : hooks.onExpr = [])
    {s : State σ} {rest : TokenList} (hs : s.toks = ts ++ rest) :
    ∃ s' pmax, s'.toks = rest ∧ parse cx hooks .expr s = parse cx hooks (.exprNext e pmax) s' := by
  cases h with
  | @atom t p _ h =>
    have hp : s.peek cx = (t, p) := peek_cons hs
    have ht : t ≠ .atSign := by rintro rfl; cases h
    refine ⟨s.junk cx, p.pmax, by rw [junk_toks, hs]; rfl, ?_⟩
    rw [parse_expr_primary hx (by rwa [hp])]
    unfold Grammar.atom at h
    split at h <;> cases h <;> simp [primary, hp, sKeyword]
  | @parenthesis ts p p2 e h =>
    have hp : s.peek cx = (.pOpen, p) := peek_cons hs
    obtain ⟨s1, h1, ht1⟩ := h rest (s.junk cx) (by rw [junk_toks, hs]; simp)
    have hp1 : s1.peek cx = (.pClose, p2) := peek_cons ht1
    refine ⟨s1.junk cx, p2.pmax, by rw [junk_toks, ht1]; rfl, ?_⟩
    rw [parse_expr_primary hx (by rw [hp]; exact Token.noConfusion)]
    obtain ⟨hclose, hquestion⟩ := head_of_parse_expr hx h1
    simp [primary, hp, Grammar.parenthesis, hclose, hquestion, h1, hp1]

/-! ## Operators -/

/-- The tokens of an operator: its own, or the parts of one that starts with `>`, without blanks. -/
inductive Spells : Binop → TokenList → Prop where
  | binop {op : Binop} {p : Pos} (h : op ≠ .opGt) : Spells op [(.binop op, p)]
  | spread {p : Pos} : Spells .opInterval [(.spread, p)]
  | gt {p : Pos} : Spells .opGt [(.binop .opGt, p)]
  | gte {p1 p2 : Pos} (h : p1.pmax = p2.pmin) : Spells .opGte [(.binop .opGt, p1), (.binop .opAssign, p2)]
  | shr {p1 p2 : Pos} (h : p1.pmax = p2.pmin) : Spells .opShr [(.binop .opGt, p1), (.binop .opGt, p2)]
  | assignShr {p1 p2 p3 : Pos} (h : p1.pmax = p2.pmin) (h2 : p2.pmax = p3.pmin) :
    Spells (.opAssignOp .opShr) [(.binop .opGt, p1), (.binop .opGt, p2), (.binop .opAssign, p3)]
  | ushr {p1 p2 p3 : Pos} (h : p1.pmax = p2.pmin) (h2 : p2.pmax = p3.pmin) :
    Spells .opUShr [(.binop .opGt, p1), (.binop .opGt, p2), (.binop .opGt, p3)]
  | assignUShr {p1 p2 p3 p4 : Pos} (h : p1.pmax = p2.pmin) (h2 : p2.pmax = p3.pmin) (h3 : p3.pmax = p4.pmin) :
    Spells (.opAssignOp .opUShr)
      [(.binop .opGt, p1), (.binop .opGt, p2), (.binop .opGt, p3), (.binop .opAssign, p4)]

/-- A chain: its tokens, its first operand, and the operators with their right operands. `1...` is a
token of its own. -/
inductive Chain (cx : Settings) (hooks : Hooks σ) : TokenList → Expr → List (ChainOp × Expr) → Prop where
  | last {ts : TokenList} {e : Expr} (h : Operand cx hooks ts e) : Chain cx hooks ts e []
  | link {ts o ts' : TokenList} {e e' : Expr} {op : ChainOp} {s : List (ChainOp × Expr)}
      (h : Operand cx hooks ts e) (ho : Spells op.1 o) (hs : Chain cx hooks ts' e' s) :
      Chain cx hooks (ts ++ o ++ ts') e ((op, e') :: s)
  | interval {ts' : TokenList} {i : String} {p : Pos} {e' : Expr} {s : List (ChainOp × Expr)}
      (hs : Chain cx hooks ts' e' s) :
      Chain cx hooks ((.intInterval i, p) :: ts') (.eConst (.int i none))
        ((⟨.opInterval, by decide⟩, e') :: s)

/-- A chain starts with an operand, so not with part of an operator. -/
theorem Chain.head {ts : TokenList} {e : Expr} {s : List (ChainOp × Expr)} (h : Chain cx hooks ts e s) :
    ∃ t p ts', ts = (t, p) :: ts' ∧ t ≠ .atSign ∧ ∀ op, t ≠ .binop op := by
  have operand : ∀ {ts e}, Operand cx hooks ts e →
      ∃ t p ts', ts = (t, p) :: ts' ∧ t ≠ .atSign ∧ ∀ op, t ≠ .binop op := by
    intro ts e h
    cases h with
    | @atom t p _ h =>
      refine ⟨t, p, [], rfl, ?_, ?_⟩
      · rintro rfl; cases h
      · rintro op rfl; cases h
    | @parenthesis ts p p2 e h => exact ⟨.pOpen, p, ts ++ [(.pClose, p2)], rfl, nofun, nofun⟩
  cases h with
  | last h => exact operand h
  | link h ho hs =>
    obtain ⟨t, p, ts', rfl, ht⟩ := operand h
    exact ⟨t, p, _, rfl, ht⟩
  | interval hs => exact ⟨_, _, _, rfl, nofun, nofun⟩

theorem Chain.isOperand {ts : TokenList} {e : Expr} {s : List (ChainOp × Expr)} (h : Chain cx hooks ts e s) :
    IsOperand e ∧ ∀ p ∈ s, IsOperand p.2 := by
  induction h with
  | last h => exact ⟨h.isOperand, List.forall_mem_nil _⟩
  | link h ho hs ih => exact ⟨h.isOperand, List.forall_mem_cons.2 ih⟩
  | interval hs ih => exact ⟨trivial, List.forall_mem_cons.2 ih⟩

/-! ## The parse of a chain -/

/-- `secure_expr` is `expr` where that has a value. -/
theorem parse_secureExpr {s s' : State σ} {e : Expr} (h : parse cx hooks .expr s = some (.ok e, s')) :
    parse cx hooks .secureExpr s = some (.ok e, s') := by
  rw [parse_plain s rfl, secureExpr', runs_alt, runs_expr, h]
  rfl

/-- Without callbacks `expr_next` is `expr_next'` where that has a value. -/
theorem parse_exprNext (hx : hooks.onExprNext = []) {s s' : State σ} {e r : Expr} {pmax : Int}
    (h : runs cx hooks (exprNext' cx e pmax) s = some (.ok r, s')) :
    parse cx hooks (.exprNext e pmax) s = some (.ok r, s') := by
  have h' : parse cx hooks (.exprNext' e pmax) s = some (.ok r, s') := by rw [parse_plain s rfl, h]
  have hr := @runs_recover σ cx hooks s (.exprNext' e pmax) fun e => cx.inDisplay && isStreamError e
  rw [h'] at hr
  rw [parse_hook, hookBody, hx, List.map_nil, fullRuns_hooked_nil, tryExprNext', runs_bind]
  exact congrArg (Prog.andThen · _ _) hr

/-- An operator and its right operand: `expr_next'` combines them. -/
theorem runs_exprNext'_binop {op : Binop} {o rest : TokenList} {s : State σ} {e1 e2 : Expr} {pmax : Int}
    {rest' : TokenList} (ho : Spells op o) (hs : s.toks = o ++ rest)
    (hrest : ∃ t p ts, rest = (t, p) :: ts ∧ ∀ op, t ≠ .binop op)
    (h : ∀ s' : State σ, s'.toks = rest →
      ∃ s'', parse cx hooks .expr s' = some (.ok e2, s'') ∧ s''.toks = rest') :
    ∃ s', runs cx hooks (exprNext' cx e1 pmax) s = some (.ok (makeBinop op e1 e2), s') ∧ s'.toks = rest' := by
  obtain ⟨t, p, ts, rfl, ht⟩ := hrest
  have hjunk : ∀ {s : State σ} {t' ts'}, s.toks = t' :: ts' → s.peek cx = t' ∧ (s.junk cx).toks = ts' :=
    fun h => ⟨peek_cons h, by rw [junk_toks, h]; rfl⟩
  cases ho with
  | @binop op p' hgt =>
    obtain ⟨hp, hs1⟩ := hjunk hs
    obtain ⟨s2, h2, ht2⟩ := h _ hs1
    exact ⟨s2.note (.binop op e1 e2), by simp [exprNext', hp, hgt, parse_secureExpr h2, notedBinop], ht2⟩
  | @spread p' =>
    obtain ⟨hp, hs1⟩ := hjunk hs
    obtain ⟨s2, h2, ht2⟩ := h _ hs1
    exact ⟨s2.note (.binop .opInterval e1 e2), by simp [exprNext', hp, parse_secureExpr h2, notedBinop], ht2⟩
  | @gt p' =>
    obtain ⟨hp, hs1⟩ := hjunk hs
    obtain ⟨hp1, -⟩ := hjunk hs1
    obtain ⟨s2, h2, ht2⟩ := h _ hs1
    exact ⟨s2.note (.binop .opGt e1 e2), by simp [exprNext', hp, greater, hp1, ht, parse_secureExpr h2, notedBinop],
      ht2⟩
  | @gte p1 p2 h12 =>
    obtain ⟨hp, hs1⟩ := hjunk hs
    obtain ⟨hp1, hs2⟩ := hjunk hs1
    obtain ⟨s2, h2, ht2⟩ := h _ hs2
    exact ⟨s2.note (.binop .opGte e1 e2), by simp [exprNext', hp, greater, hp1, h12, parse_secureExpr h2, notedBinop],
      ht2⟩
  | @shr p1 p2 h12 =>
    obtain ⟨hp, hs1⟩ := hjunk hs
    obtain ⟨hp1, hs2⟩ := hjunk hs1
    obtain ⟨hp2, -⟩ := hjunk hs2
    obtain ⟨s2, h2, ht2⟩ := h _ hs2
    exact ⟨s2.note (.binop .opShr e1 e2), by simp [exprNext', hp, greater, hp1, h12, hp2, ht, parse_secureExpr h2,
      notedBinop], ht2⟩
  | @assignShr p1 p2 p3 h12 h23 =>
    obtain ⟨hp, hs1⟩ := hjunk hs
    obtain ⟨hp1, hs2⟩ := hjunk hs1
    obtain ⟨hp2, hs3⟩ := hjunk hs2
    obtain ⟨s2, h2, ht2⟩ := h _ hs3
    exact ⟨s2.note (.binop (.opAssignOp .opShr) e1 e2), by simp [exprNext', hp, greater, hp1, h12, hp2, h23, h2,
      notedBinop], ht2⟩
  | @ushr p1 p2 p3 h12 h23 =>
    obtain ⟨hp, hs1⟩ := hjunk hs
    obtain ⟨hp1, hs2⟩ := hjunk hs1
    obtain ⟨hp2, hs3⟩ := hjunk hs2
    obtain ⟨hp3, -⟩ := hjunk hs3
    obtain ⟨s2, h2, ht2⟩ := h _ hs3
    exact ⟨s2.note (.binop .opUShr e1 e2), by
      simp [exprNext', hp, greater, hp1, h12, hp2, h23, hp3, ht, parse_secureExpr h2, notedBinop], ht2⟩
  | @assignUShr p1 p2 p3 p4 h12 h23 h34 =>
    obtain ⟨hp, hs1⟩ := hjunk hs
    obtain ⟨hp1, hs2⟩ := hjunk hs1
    obtain ⟨hp2, hs3⟩ := hjunk hs2
    obtain ⟨hp3, hs4⟩ := hjunk hs3
    obtain ⟨s2, h2, ht2⟩ := h _ hs4
    exact ⟨s2.note (.binop (.opAssignOp .opUShr) e1 e2), by simp [exprNext', hp, greater, hp1, h12, hp2, h23, hp3, h34,
      h2, notedBinop], ht2⟩

/-- `expr` on a chain, when `expr_next` makes `last e` of its last operand `e` and of what follows. -/
theorem Chain.parse_expr (hx : hooks.onExpr = []) (hn : hooks.onExprNext = []) {last : Expr → Expr}
    {rest rest' : TokenList}
    (hlast : ∀ (e : Expr) (pmax : Int) (s : State σ), s.toks = rest →
      ∃ s', parse cx hooks (.exprNext e pmax) s = some (.ok (last e), s') ∧ s'.toks = rest')
    {ts : TokenList} {e : Expr} {l : List (ChainOp × Expr)} (h : Chain cx hooks ts e l) :
    ∀ s : State σ, s.toks = ts ++ rest →
      ∃ s', parse cx hooks .expr s = some (.ok (combine last e l), s') ∧ s'.toks = rest' := by
  induction h with
  | last h =>
    intro s hs
    obtain ⟨s1, pmax, hs1, he⟩ := h.parse_expr hx hs
    rw [he]
    exact hlast _ pmax s1 hs1
  | @link ts o ts' e e' op l h ho hc ih =>
    intro s hs
    have hs' : s.toks = ts ++ (o ++ (ts' ++ rest)) := by simpa using hs
    obtain ⟨s1, pmax, hs1, he⟩ := h.parse_expr hx hs'
    obtain ⟨t, p, ts'', rfl, -, ht⟩ := hc.head
    obtain ⟨s2, h2, hs2⟩ := @runs_exprNext'_binop σ cx hooks _ _ _ _ e _ pmax _ ho hs1 ⟨t, p, _, rfl, ht⟩ ih
    exact ⟨s2, by rw [he]; exact parse_exprNext hn h2, hs2⟩
  | @interval ts' i p e' l hc ih =>
    intro s hs
    have hp : s.peek cx = (.intInterval i, p) := peek_cons hs
    obtain ⟨s1, h1, hs1⟩ := ih (s.junk cx) (by rw [junk_toks, hs]; rfl)
    refine ⟨s1, ?_, hs1⟩
    rw [parse_expr_primary hx (by rw [hp]; exact Token.noConfusion)]
    simp [primary, hp, h1, combine]

/-! ## The end of a chain -/

/-- `expr_next'` has an alternative that may begin with the token. -/
def continues : Token → Bool
  | .brOpen | .dot | .questionDot | .pOpen | .bkOpen | .arrow | .binop _ | .spread | .question
  | .kwd .kwIn | .const (.ident "is") => true
  | .unop op => isPostfix op
  | _ => false

/-- The expression ends before `rest`. -/
def Ends (cx : Settings) (rest : TokenList) : Prop := continues (rest.headD (.eof, cx.eofPos)).1 = false

theorem runs_exprNext'_end {s : State σ} (h : Ends cx s.toks) (e : Expr) (pmax : Int) :
    runs cx hooks (exprNext' cx e pmax) s = some (.ok e, s) := by
  have hc : continues (s.peek cx).1 = false := h
  simp only [exprNext', runs_bind, runs_peek, Prog.andThen_ok]
  generalize s.peek cx = q at hc
  obtain ⟨t, p⟩ := q
  unfold continues at hc
  split at hc <;> first | exact Bool.noConfusion hc | skip
  · rename_i op ht
    obtain rfl : t = .unop op := ht
    simp [hc]
  · split <;> first | rfl | simp_all

/-- `?` and `:` with the expressions they come before: a ternary. -/
theorem runs_exprNext'_ternary {s : State σ} {ts2 ts3 rest : TokenList} {pq pd : Pos} {e2 e3 : Expr}
    (hs : s.toks = (.question, pq) :: ts2 ++ (.dblDot, pd) :: ts3 ++ rest)
    (h2 : Parses cx hooks .expr ts2 ((.dblDot, pd) :: ts3 ++ rest) e2)
    (h3 : Parses cx hooks .expr ts3 rest e3) (e1 : Expr) (pmax : Int) :
    ∃ s', runs cx hooks (exprNext' cx e1 pmax) s = some (.ok (.eTernary e1 e2 e3), s') ∧ s'.toks = rest := by
  have hp : s.peek cx = (.question, pq) := peek_cons (by simpa using hs)
  obtain ⟨s1, he2, hs1⟩ := h2 (s.junk cx) (by rw [junk_toks, hs]; simp)
  have hp1 : s1.peek cx = (.dblDot, pd) := peek_cons hs1
  obtain ⟨s2, he3, hs2⟩ := h3 (s1.junk cx) (by rw [junk_toks, hs1]; rfl)
  exact ⟨s2, by simp [exprNext', hp, he2, hp1, he3], hs2⟩

/-! ## The tree of a chain -/

/-- The tree has the operands and operators of the chain, in order, and respects `precedence`. -/
def IsTree (e : Expr) (l : List (ChainOp × Expr)) (t : OpTree ChainOp Expr) : Prop :=
  t.Respects fixity ∧ t.first = e ∧ t.rest = l

/-- The only tree of the chain. -/
def TheTree (e : Expr) (l : List (ChainOp × Expr)) (t : OpTree ChainOp Expr) : Prop :=
  IsTree e l t ∧ ∀ t', IsTree e l t' → t' = t

theorem theTree_build (e : Expr) (l : List (ChainOp × Expr)) : TheTree e l (OpTree.build fixity e l) :=
  ⟨OpTree.eq_build_iff.1 rfl, fun _ ht => OpTree.eq_build_iff.2 ht⟩

/-- No mods. -/
abbrev noMods : Hooks σ := initialHooks

/-- What `expr` makes of a chain: its one tree that respects the table of precedences; and with a
ternary after it, that tree as the condition if no operator is an assignment, else the tree of what
follows the last assignment as the condition, and the ternary as that assignment's right operand. -/
theorem chain_tree {ts : TokenList} {e : Expr} {l : List (ChainOp × Expr)}
    (h : Chain cx (noMods : Hooks σ) ts e l) :
    ∃ t, TheTree e l t ∧
      (∀ rest, Ends cx rest → Parses cx (noMods : Hooks σ) .expr ts rest (toExpr t)) ∧
      ∀ ts2 ts3 rest pq pd e2 e3,
        Parses cx (noMods : Hooks σ) .expr ts2 ((.dblDot, pd) :: ts3 ++ rest) e2 →
        Parses cx (noMods : Hooks σ) .expr ts3 rest e3 →
        ((∀ p ∈ l, isHigherThanTernary p.1.1 = true) →
          Parses cx (noMods : Hooks σ) .expr (ts ++ (.question, pq) :: ts2 ++ (.dblDot, pd) :: ts3) rest
            (.eTernary (toExpr t) e2 e3)) ∧
        ∀ pre op e' post, l = pre ++ (op, e') :: post → isHigherThanTernary op.1 = false →
          (∀ p ∈ post, isHigherThanTernary p.1.1 = true) →
          ∃ tc tr, TheTree e' post tc ∧ TheTree e (pre ++ [(op, .eTernary (toExpr tc) e2 e3)]) tr ∧
            Parses cx (noMods : Hooks σ) .expr (ts ++ (.question, pq) :: ts2 ++ (.dblDot, pd) :: ts3) rest
              (toExpr tr) := by
  obtain ⟨he, hl⟩ := h.isOperand
  refine ⟨_, theTree_build e l, ?_, ?_⟩
  · intro rest hend
    rw [← combine_id e l he hl]
    refine h.parse_expr rfl rfl fun e pmax s hs => ⟨s, ?_, hs⟩
    exact parse_exprNext rfl (runs_exprNext'_end (by rwa [hs]) e pmax)
  intro ts2 ts3 rest pq pd e2 e3 h2 h3
  have hternary : Parses cx (noMods : Hooks σ) .expr (ts ++ (.question, pq) :: ts2 ++ (.dblDot, pd) :: ts3)
      rest (combine (.eTernary · e2 e3) e l) := by
    intro s hs
    refine h.parse_expr rfl rfl
      (fun e pmax s hs => ?_) s (by simpa using hs)
    obtain ⟨s', he, hs'⟩ := runs_exprNext'_ternary (by simpa using hs) h2 h3 e pmax
    exact ⟨s', parse_exprNext rfl he, hs'⟩
  constructor
  · intro htight
    rwa [combine_ternary e2 e3 e l he hl htight] at hternary
  · rintro pre op e' post rfl hop htight
    have he' : IsOperand e' := hl (op, e') (by simp)
    have hpost : ∀ p ∈ post, IsOperand p.2 := fun p hp => hl p (by simp [hp])
    have hpre : ∀ p ∈ pre, IsOperand p.2 := fun p hp => hl p (by simp [hp])
    rw [combine_ternary_assign e2 e3 hop he' hpost htight e pre he hpre] at hternary
    exact ⟨_, _, theTree_build e' post, theTree_build _ _, hternary⟩

/-- A compilation without a display request. -/
def plainSettings : Settings where
  inDisplay := false
  inDisplayFile := false
  inDisplay_of_file := id
  isCompletion := false
  isSignatureDisplay := false
  displayPosition := nullPos
  inMacro := false
  parsingMacroCond := false
  eofPos := nullPos
  lexXml := fun _ _ => .error .failure
  reifyExpr := fun _ _ => .error .ice
  reifyType := fun _ _ => .error .ice
  reifyTypeDef := fun _ _ => .error .ice

def identTok (n : String) : Token × Pos := (.const (.ident n), nullPos)

def identExpr (n : String) : Expr := .eConst (.ident n)

/-- `a op b`. -/
def binopToks (op : Binop) : TokenList := [identTok "a"] ++ [(.binop op, nullPos)] ++ [identTok "b"]

/-- `? c : d`. -/
def ternaryToks : TokenList := (.question, nullPos) :: [identTok "c"] ++ (.dblDot, nullPos) :: [identTok "d"]

theorem chain_binopToks (op : ChainOp) (h : op.1 ≠ .opGt) :
    Chain plainSettings (noMods : Hooks Unit) (binopToks op.1) (identExpr "a") [(op, identExpr "b")] :=
  .link (.atom rfl) (.binop h) (.last (.atom rfl))

/-- `a + b`. -/
theorem chain_tree_add :
    ∃ t, TheTree (identExpr "a") [(⟨.opAdd, by decide⟩, identExpr "b")] t ∧
      Parses plainSettings (noMods : Hooks Unit) .expr (binopToks .opAdd) [] (toExpr t) := by
  obtain ⟨t, ht, hp, -⟩ := chain_tree (chain_binopToks ⟨.opAdd, by decide⟩ (by decide))
  exact ⟨t, ht, hp [] rfl⟩

/-- An identifier before a token that does not go on with it. -/
theorem parses_ident (n : String) {rest : TokenList} (h : Ends plainSettings rest) :
    Parses plainSettings (noMods : Hooks Unit) .expr [identTok n] rest (identExpr n) :=
  (Chain.last (.atom rfl)).parse_expr rfl rfl fun e pmax s hs =>
    ⟨s, parse_exprNext rfl (runs_exprNext'_end (by rwa [hs]) e pmax), hs⟩

/-- `a = b ? c : d` is not the ternary with `a = b` as its condition. -/
theorem ternary_after_assignment :
    ¬ Parses plainSettings (noMods : Hooks Unit) .expr (binopToks .opAssign ++ ternaryToks) []
      (.eTernary (.eBinop .opAssign (identExpr "a") (identExpr "b")) (identExpr "c") (identExpr "d")) := by
  intro h
  let s : State Unit := ⟨binopToks .opAssign ++ ternaryToks, (.eof, nullPos), false, [], (), []⟩
  obtain ⟨s1, h1, -⟩ := h s (List.append_nil _).symm
  have hc := chain_binopToks ⟨.opAssign, by decide⟩ (by decide)
  have hlast : ∀ (e : Expr) (pmax : Int) (s : State Unit), s.toks = ternaryToks →
      ∃ s', parse plainSettings noMods (.exprNext e pmax) s =
        some (.ok (.eTernary e (identExpr "c") (identExpr "d")), s') ∧ s'.toks = [] := by
    intro e pmax s hs
    obtain ⟨s', he, hs'⟩ := runs_exprNext'_ternary (hs.trans (List.append_nil _).symm) (parses_ident "c" rfl)
      (parses_ident "d" rfl) e pmax
    exact ⟨s', parse_exprNext rfl he, hs'⟩
  obtain ⟨s2, h2, -⟩ := hc.parse_expr rfl rfl hlast s rfl
  rw [h1] at h2
  cases h2

end EvilHaxe.Grammar
