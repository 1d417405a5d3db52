/-
The reference meaning of well-nested directives. `Items` is a file whose `#if`, `#elseif`, `#else` and
`#end` are well nested, as a tree; `selected` is the recursive meaning of the tree: of each group the
first branch whose condition is true, or the `#else` branch. `live` tells the same story with the
conditions in force at each token and with the dead blocks.

What a token of the selected code does is told by `deliver`: comments are dropped, `#line` takes the
number after it, `#error` and unknown directives raise. Unknown directives raise in dead code too.
-/
import EvilHaxe.ParserEntry.Conditions
import EvilHaxe.ParserEntry.NextToken

namespace EvilHaxe.ParserEntry

open EvilHaxe.Syntax ConditionHandler

/-! ## Well-nested files -/

/-- The directives of conditional compilation, and the end of the file. -/
def isConditional : Token → Bool
  | .sharp s => s = "if" || s = "elseif" || s = "else" || s = "end"
  | .eof => true
  | _ => false

/-- A condition: tokens that `parse_macro_cond` reads, whatever follows them. -/
structure Cond (cx : Context) where
  toks : List TokPos
  expr : Expr
  pos : Pos
  parses : ∀ ts, parseMacroCond cx (toks ++ ts) = .ok ((expr, pos), [], ts)

mutual

/-- A sequence of tokens and of groups of branches. -/
inductive Items (cx : Context) where
  | nil
  | tok (t : TokPos) (plain : isConditional t.1 = false) (rest : Items cx)
  | group (p : Pos) (c : Cond cx) (body : Items cx) (tail : Tail cx) (rest : Items cx)

/-- A group after one of its branches. -/
inductive Tail (cx : Context) where
  | fin (p : Pos)
  | els (p : Pos) (body : Items cx) (pend : Pos)
  | elif (p : Pos) (c : Cond cx) (body : Items cx) (tail : Tail cx)

end

variable {cx : Context}

mutual

/-- The tokens of the items, before `k`. -/
def Items.onto : Items cx → List TokPos → List TokPos
  | .nil, k => k
  | .tok t _ rest, k => t :: rest.onto k
  | .group p c body tail rest, k => (.sharp "if", p) :: (c.toks ++ body.onto (tail.onto (rest.onto k)))

def Tail.onto : Tail cx → List TokPos → List TokPos
  | .fin p, k => (.sharp "end", p) :: k
  | .els p body pend, k => (.sharp "else", p) :: body.onto ((.sharp "end", pend) :: k)
  | .elif p c body tail, k => (.sharp "elseif", p) :: (c.toks ++ body.onto (tail.onto k))

end

/-- Whether a condition is true. -/
def Cond.truth (c : Cond cx) : Except Exc Bool := ParserEntry.truth cx.Fl cx.env c.expr

/-! ## The selected tokens -/

/-- A live token; `#error` raises. -/
def liveToken (cx : Context) (t : TokPos) (next : List TokPos) : Except Exc TokPos :=
  if t.1 = .sharp "error" then
    .error (.error (errorDirective (next.head?.getD (.eof, cx.eofPos)).1))
  else .ok t

/-- What a token of dead code raises. -/
def deadToken (t : TokPos) : Except Exc Unit :=
  match t.1 with
  | .sharp s => if s = "error" ∨ s = "line" then .ok () else .error (.error (sharpError s))
  | _ => .ok ()

mutual

/-- What skipping the items raises. -/
def Items.skipped : Items cx → Except Exc Unit
  | .nil => .ok ()
  | .tok t _ rest => do deadToken t; rest.skipped
  | .group _ _ body tail rest => do body.skipped; tail.skipped; rest.skipped

def Tail.skipped : Tail cx → Except Exc Unit
  | .fin _ => .ok ()
  | .els _ body _ => body.skipped
  | .elif _ _ body tail => do body.skipped; tail.skipped

end

/-- An exception, if there is one. -/
def raises : Except Exc Unit → List (Except Exc TokPos)
  | .ok () => []
  | .error x => [.error x]

mutual

/-- The live tokens of the items, up to the first exception: of a group the first branch whose
condition is true, or the `#else` branch. -/
def Items.selected : Items cx → List TokPos → List (Except Exc TokPos)
  | .nil, _ => []
  | .tok t _ rest, k => liveToken cx t (rest.onto k) :: rest.selected k
  | .group _ c body tail rest, k =>
    (match c.truth with
    | .error x => [.error x]
    | .ok true => body.selected (tail.onto (rest.onto k)) ++ raises tail.skipped
    | .ok false => raises body.skipped ++ tail.selected (rest.onto k)) ++ rest.selected k

def Tail.selected : Tail cx → List TokPos → List (Except Exc TokPos)
  | .fin _, _ => []
  | .els _ body pend, k => body.selected ((.sharp "end", pend) :: k)
  | .elif _ c body tail, k =>
    match c.truth with
    | .error x => [.error x]
    | .ok true => body.selected (tail.onto k) ++ raises tail.skipped
    | .ok false => raises body.skipped ++ tail.selected k

end

/-- What becomes of a live token: nothing, a `#line` that waits for its number, the token, or an
exception. -/
inductive Effect where
  | drop
  | line
  | keep
  | raise (x : Exc)

def effect (cx : Context) (t : TokPos) : Effect :=
  match t.1 with
  | .comment _ => .drop
  | .commentLine _ => if commentCompletion cx t.2 then .raise .displayException else .drop
  | .sharp s =>
    if s = "line" then .line
    else if cx.moduleAttributes.contains s then .keep
    else .raise (.error (sharpError s))
  | _ => .keep

/-- The tokens delivered of the live ones, and the exception that ends them: `n` is the number of
`#line` directives whose number is still to come. -/
def deliver (cx : Context) : Nat → List (Except Exc TokPos) → List TokPos × Option Exc
  | 0, [] => ([], none)
  | _ + 1, [] => ([], some (.error (.unexpected .eof)))
  | _, .error x :: _ => ([], some x)
  | n, .ok t :: ts =>
    match effect cx t, n with
    | .drop, n => deliver cx n ts
    | .line, n => deliver cx (n + 1) ts
    | .raise x, _ => ([], some x)
    | .keep, 0 => (t :: (deliver cx 0 ts).1, (deliver cx 0 ts).2)
    | .keep, n + 1 =>
      match lineError t.1 with
      | none => deliver cx n ts
      | some msg => ([], some (.error msg))

end EvilHaxe.ParserEntry

/-! Skipping of dead code. From a state in which the rest of the file is a well-nested piece before `k`,
`skip_tokens` reaches `k`; it closes the dead blocks of the piece, each with the conjunction of the
conditions on its way, and the stacks are as before. -/

namespace EvilHaxe.ParserEntry

open EvilHaxe.Syntax ConditionHandler

variable {cx : Context}

/-! ## Dead blocks -/

abbrev Block := Pos × Expr

/-- The block that `open_dead_block` opens. -/
def opened (p : Pos) (stack : List Expr) : Block := (⟨p.pmax, p.pmax⟩, currentCondition stack)

/-- The block that `close_dead_block` records. -/
def closed (o : Block) (p : Pos) : Block := (⟨o.1.pmin, p.pmin⟩, o.2)

mutual

/-- The dead blocks of skipped items, `st` being the conditions above them. -/
def Items.dead (st : List Expr) : Items cx → Except Exc (List Block)
  | .nil => .ok []
  | .tok t _ rest => do deadToken t; rest.dead st
  | .group _ c body tail rest => do
    let bs1 ← body.dead (c.expr :: st)
    let bs2 ← tail.dead c.expr st (opened c.pos (c.expr :: st))
    let bs3 ← rest.dead st
    .ok (bs1 ++ bs2 ++ bs3)

/-- The same for the rest of a group: `e :: g` are the conditions of the branch before, `o` its block. -/
def Tail.dead (e : Expr) (g : List Expr) (o : Block) : Tail cx → Except Exc (List Block)
  | .fin p => .ok [closed o p]
  | .els p body pend => do
    let bs ← body.dead (negate e :: g)
    .ok (closed o p :: (bs ++ [closed (opened p (negate e :: g)) pend]))
  | .elif p c body tail => do
    let bs1 ← body.dead (c.expr :: negate e :: g)
    let bs2 ← tail.dead c.expr (negate e :: g) (opened c.pos (c.expr :: negate e :: g))
    .ok (closed o p :: (bs1 ++ bs2))

end

/-! ## Running programs -/

abbrev Result (α : Type) := Option (Except (Exc × State) (α × State))

def Result.thenRun {α β : Type} (r : Result α) (f : α → M β) : Result β :=
  match r with
  | none => none
  | some (.error x) => some (.error x)
  | some (.ok (a, s)) => f a s

@[simp]
theorem bind_apply {α β : Type} (m : M α) (f : α → M β) (s : State) : (m >>= f) s = Result.thenRun (m s) f := by
  show ExceptT.bind (m s) (fun a => f a.1 a.2) = _
  unfold ExceptT.bind ExceptT.mk Result.thenRun
  rcases m s with _ | _ | ⟨a, s⟩ <;> rfl

@[simp]
theorem thenRun_ok {α β : Type} (a : α) (s : State) (f : α → M β) :
    Result.thenRun (some (.ok (a, s))) f = f a s := rfl

@[simp]
theorem thenRun_error {α β : Type} (x : Exc × State) (f : α → M β) :
    Result.thenRun (some (.error x)) f = some (.error x) := rfl

theorem thenRun_assoc {α β γ : Type} (r : Result α) (f : α → M β) (g : β → M γ) :
    (r.thenRun f).thenRun g = r.thenRun fun a => f a >>= g := by
  rcases r with _ | _ | ⟨a, s⟩
  · rfl
  · rfl
  · exact (bind_apply (f a) g s).symm

section

variable (code : List TokPos) (ms : List Pos) (conds : ConditionHandler) (dbc : DeadBlockCollector)
  (ex st g : List Expr) (e c : Expr) (d : Nat) (ds : List Nat) (bs cur : List Block)
  (doc : Option (String × Int)) (er : List ErrorMsg)

@[simp]
theorem lexerToken_cons (t : TokPos) : lexerToken cx ⟨t :: code, ms, conds, dbc, doc, er, []⟩ =
    some (.ok (t, ⟨code, ms, conds, dbc, doc, er, []⟩)) := rfl

@[simp]
theorem condition_cond (c : Cond cx) : condition cx ⟨c.toks ++ code, ms, conds, dbc, doc, er, []⟩ =
    some (.ok ((c.expr, c.pos), ⟨code, ms, conds, dbc, doc, er, []⟩)) := by
  have hread : code.length - (c.toks ++ code).length = 0 := by
    rw [List.length_append]
    omega
  simp only [condition, State.leave, c.parses, hread, List.reverse_nil, List.nil_append, Nat.max_self,
    List.take_zero, List.drop_zero]

@[simp]
theorem condIf_apply : condIf c ⟨code, ms, ⟨ex, st, ds⟩, dbc, doc, er, []⟩ =
    some (.ok ((), ⟨code, ms, ⟨c :: ex, c :: st, 1 :: ds⟩, dbc, doc, er, []⟩)) := rfl

@[simp]
theorem condElse_cons : condElse ⟨code, ms, ⟨ex, e :: g, ds⟩, dbc, doc, er, []⟩ =
    some (.ok ((), ⟨code, ms, ⟨ex, negate e :: g, ds⟩, dbc, doc, er, []⟩)) := rfl

@[simp]
theorem condElseif_cons : condElseif c ⟨code, ms, ⟨ex, e :: g, d :: ds⟩, dbc, doc, er, []⟩ =
    some (.ok ((), ⟨code, ms, ⟨c :: ex, c :: negate e :: g, (d + 1) :: ds⟩, dbc, doc, er, []⟩)) := rfl

theorem condEnd_cons {cs : List Expr} (h : condEnd.loop d g = .ok cs) :
    condEnd ⟨code, ms, ⟨ex, e :: g, (d + 1) :: ds⟩, dbc, doc, er, []⟩ =
      some (.ok ((), ⟨code, ms, ⟨ex, cs, ds⟩, dbc, doc, er, []⟩)) := by
  simp only [condEnd, withConds, ConditionHandler.condEnd, condEnd.loop, h, bind, Except.bind]

@[simp]
theorem openDeadBlock_apply (p : Pos) : openDeadBlock p ⟨code, ms, ⟨ex, st, ds⟩, ⟨bs, cur⟩, doc, er, []⟩ =
    some (.ok ((), ⟨code, ms, ⟨ex, st, ds⟩, ⟨bs, opened p st :: cur⟩, doc, er, []⟩)) := rfl

@[simp]
theorem closeDeadBlock_cons (p : Pos) (o : Block) : closeDeadBlock p ⟨code, ms, conds, ⟨bs, o :: cur⟩, doc, er, []⟩ =
    some (.ok ((), ⟨code, ms, conds, ⟨bs ++ [closed o p], cur⟩, doc, er, []⟩)) := rfl

@[simp]
theorem getMstack_apply : getMstack ⟨code, ms, conds, dbc, doc, er, []⟩ =
    some (.ok (ms, ⟨code, ms, conds, dbc, doc, er, []⟩)) := rfl

@[simp]
theorem setMstack_apply (l : List Pos) : setMstack l ⟨code, ms, conds, dbc, doc, er, []⟩ =
    some (.ok ((), ⟨code, l, conds, dbc, doc, er, []⟩)) := rfl

end

/-! ## `skip_tokens` -/

/-- The result of a skip: the program goes on at `next`, given some record of the conditions met and the
blocks closed, or raises. -/
def Skips {α : Type} (r : Except Exc (List Block)) (res : Result α) (next : List Expr → List Block → Result α) : Prop :=
  match r with
  | .ok bs => ∃ ex, res = next ex bs
  | .error x => ∃ s, res = some (.error (x, s))

theorem Skips.bind {α : Type} {r : Except Exc (List Block)} {f : List Block → Except Exc (List Block)}
    {res : Result α} {next next' : List Expr → List Block → Result α} (h : Skips r res next)
    (hf : ∀ ex bs, Skips (f bs) (next ex bs) next') : Skips (r >>= f) res next' := by
  cases r with
  | error x => exact h
  | ok bs =>
    obtain ⟨ex, rfl⟩ := h
    exact hf ex bs

theorem Skips.thenRun {α β : Type} {r : Except Exc (List Block)} {res : Result α}
    {next : List Expr → List Block → Result α} (h : Skips r res next) (f : α → M β) :
    Skips r (res.thenRun f) (fun ex bs => (next ex bs).thenRun f) := by
  cases r with
  | error x =>
    obtain ⟨s, rfl⟩ := h
    exact ⟨s, rfl⟩
  | ok bs =>
    obtain ⟨ex, rfl⟩ := h
    exact ⟨ex, rfl⟩

theorem skipTokens_cons (p : Pos) (test : Bool) (t : TokPos) (ts ms conds dbc doc er) :
    skipTokens cx p test ⟨t :: ts, ms, conds, dbc, doc, er, []⟩ =
      skipTokensLoop cx p test t ⟨ts, ms, conds, dbc, doc, er, []⟩ := by
  simp [skipTokens]

/-- A plain token is passed over, unless it is an unknown directive. -/
theorem skipTokens_plain (p : Pos) (test : Bool) {t : TokPos} (plain : isConditional t.1 = false)
    (ts ms conds dbc doc er) :
    skipTokens cx p test ⟨t :: ts, ms, conds, dbc, doc, er, []⟩ =
      match deadToken t with
      | .ok () => skipTokens cx p test ⟨ts, ms, conds, dbc, doc, er, []⟩
      | .error x => some (.error (x, ⟨ts, ms, conds, dbc, doc, er, []⟩)) := by
  rw [skipTokens_cons, skipTokensLoop.eq_def]
  obtain ⟨t, pt⟩ := t
  cases t with
  | sharp s =>
    simp only [isConditional, Bool.or_eq_false_iff, decide_eq_false_iff_not] at plain
    obtain ⟨⟨⟨h1, h2⟩, h3⟩, h4⟩ := plain
    simp only [h1, h2, h3, h4, false_and, if_false, deadToken]
    by_cases h : s = "error" ∨ s = "line"
    · simp only [h, if_true]; rfl
    · simp only [h, if_false]; rfl
  | eof => cases plain
  | _ => rfl

theorem skipTokens_eq (p : Pos) (test : Bool) (s : State) :
    Result.thenRun (lexerToken cx s) (skipTokensLoop cx p test) = skipTokens cx p test s := by
  rw [skipTokens, bind_apply]

section

variable (p q : Pos) (test : Bool) (c : Cond cx) (ts : List TokPos) (ms : List Pos) (ex st g : List Expr)
  (e : Expr) (d : Nat) (ds : List Nat) (bs cur : List Block) (o : Block) (doc : Option (String × Int))
  (er : List ErrorMsg)

/-- A nested `#if` skips its first branch, with a block of its own. -/
theorem skipTokens_if :
    skipTokens cx p test ⟨(.sharp "if", q) :: (c.toks ++ ts), ms, ⟨ex, st, ds⟩, ⟨bs, cur⟩, doc, er, []⟩ =
      Result.thenRun (skipTokens cx p false ⟨ts, ms, ⟨c.expr :: ex, c.expr :: st, 1 :: ds⟩,
        ⟨bs, opened c.pos (c.expr :: st) :: cur⟩, doc, er, []⟩) (skipTokensLoop cx p test) := by
  rw [skipTokens_cons, skipTokensLoop.eq_def, ← skipTokens_eq, thenRun_assoc]
  simp

theorem skipTokens_end {cs : List Expr} (h : condEnd.loop d g = .ok cs) :
    skipTokens cx p test ⟨(.sharp "end", q) :: ts, ms, ⟨ex, e :: g, (d + 1) :: ds⟩, ⟨bs, o :: cur⟩, doc, er, []⟩ =
      lexerToken cx ⟨ts, ms, ⟨ex, cs, ds⟩, ⟨bs ++ [closed o q], cur⟩, doc, er, []⟩ := by
  rw [skipTokens_cons, skipTokensLoop.eq_def]
  simp [condEnd_cons (h := h)]

theorem skipTokens_else_false :
    skipTokens cx p false ⟨(.sharp "else", q) :: ts, ms, ⟨ex, e :: g, ds⟩, ⟨bs, o :: cur⟩, doc, er, []⟩ =
      skipTokens cx p false ⟨ts, ms, ⟨ex, negate e :: g, ds⟩,
        ⟨bs ++ [closed o q], opened q (negate e :: g) :: cur⟩, doc, er, []⟩ := by
  rw [skipTokens_cons, skipTokensLoop.eq_def, ← skipTokens_eq]
  simp

theorem skipTokens_elseif_false :
    skipTokens cx p false
        ⟨(.sharp "elseif", q) :: (c.toks ++ ts), ms, ⟨ex, e :: g, d :: ds⟩, ⟨bs, o :: cur⟩, doc, er, []⟩ =
      skipTokens cx p false ⟨ts, ms, ⟨c.expr :: ex, c.expr :: negate e :: g, (d + 1) :: ds⟩,
        ⟨bs ++ [closed o q], opened c.pos (c.expr :: negate e :: g) :: cur⟩, doc, er, []⟩ := by
  rw [skipTokens_cons, skipTokensLoop.eq_def, ← skipTokens_eq]
  simp

theorem skipTokens_else_true :
    skipTokens cx p true ⟨(.sharp "else", q) :: ts, ms, ⟨ex, e :: g, ds⟩, ⟨bs, o :: cur⟩, doc, er, []⟩ =
      lexerToken cx ⟨ts, q :: ms, ⟨ex, negate e :: g, ds⟩, ⟨bs ++ [closed o q], cur⟩, doc, er, []⟩ := by
  rw [skipTokens_cons, skipTokensLoop.eq_def]
  simp

theorem skipTokens_elseif_true :
    skipTokens cx p true
        ⟨(.sharp "elseif", q) :: (c.toks ++ ts), ms, ⟨ex, e :: g, d :: ds⟩, ⟨bs, o :: cur⟩, doc, er, []⟩ =
      enterMacro cx false q ⟨c.toks ++ ts, ms, ⟨ex, e :: g, d :: ds⟩, ⟨bs ++ [closed o q], cur⟩, doc, er, []⟩ := by
  rw [skipTokens_cons, skipTokensLoop.eq_def]
  simp

end

mutual

theorem skip_items : ∀ (is : Items cx) (p : Pos) (test : Bool) (k ms ex st ds bs cur doc er),
    Skips (is.dead st) (skipTokens cx p test ⟨is.onto k, ms, ⟨ex, st, ds⟩, ⟨bs, cur⟩, doc, er, []⟩)
      (fun ex' bs' => skipTokens cx p test ⟨k, ms, ⟨ex', st, ds⟩, ⟨bs ++ bs', cur⟩, doc, er, []⟩)
  | .nil, p, test, k, ms, ex, st, ds, bs, cur, doc, er => ⟨ex, by simp only [List.append_nil]; rfl⟩
  | .tok t plain rest, p, test, k, ms, ex, st, ds, bs, cur, doc, er => by
    have ih := skip_items rest p test k ms ex st ds bs cur doc er
    simp only [Items.dead, Items.onto]
    rw [skipTokens_plain p test plain]
    cases h : deadToken t with
    | error x => exact ⟨_, rfl⟩
    | ok _ => exact ih
  | .group pif c body tail rest, p, test, k, ms, ex, st, ds, bs, cur, doc, er => by
    simp only [Items.dead, Items.onto]
    rw [skipTokens_if]
    refine ((skip_items body p false _ ms _ (c.expr :: st) (1 :: ds) bs _ doc er).thenRun _).bind fun ex1 bs1 => ?_
    refine ((skip_tail tail p _ ms ex1 c.expr st 0 ds _ _ cur doc er rfl).thenRun _).bind fun ex2 bs2 => ?_
    rw [skipTokens_eq]
    refine Skips.bind (skip_items rest p test k ms ex2 st ds _ cur doc er) fun ex3 bs3 => ⟨ex3, ?_⟩
    simp only [List.append_assoc]

theorem skip_tail : ∀ (tail : Tail cx) (p : Pos) (k ms ex e g d ds bs o cur doc er) {cs : List Expr},
    condEnd.loop d g = .ok cs →
    Skips (tail.dead e g o)
      (skipTokens cx p false ⟨tail.onto k, ms, ⟨ex, e :: g, (d + 1) :: ds⟩, ⟨bs, o :: cur⟩, doc, er, []⟩)
      (fun ex' bs' => lexerToken cx ⟨k, ms, ⟨ex', cs, ds⟩, ⟨bs ++ bs', cur⟩, doc, er, []⟩)
  | .fin pend, p, k, ms, ex, e, g, d, ds, bs, o, cur, doc, er, cs, hd =>
    ⟨ex, skipTokens_end p pend false k ms ex g e d ds bs cur o doc er hd⟩
  | .els pels body pend, p, k, ms, ex, e, g, d, ds, bs, o, cur, doc, er, cs, hd => by
    simp only [Tail.onto, Tail.dead]
    rw [skipTokens_else_false]
    refine (skip_items body p false _ ms ex (negate e :: g) ((d + 1) :: ds) _ _ doc er).bind fun ex1 bs1 => ⟨ex1, ?_⟩
    rw [skipTokens_end (h := hd)]
    simp only [List.append_assoc, List.cons_append, List.nil_append]
  | .elif pelif c body tail, p, k, ms, ex, e, g, d, ds, bs, o, cur, doc, er, cs, hd => by
    simp only [Tail.onto, Tail.dead]
    rw [skipTokens_elseif_false]
    refine (skip_items body p false _ ms _ (c.expr :: negate e :: g) ((d + 2) :: ds) _ _ doc er).bind
      fun ex1 bs1 => ?_
    refine (skip_tail tail p k ms ex1 c.expr (negate e :: g) (d + 1) ds _ _ cur doc er hd).bind fun ex2 bs2 => ⟨ex2, ?_⟩
    simp only [List.append_assoc, List.cons_append, List.nil_append]

end

end EvilHaxe.ParserEntry
