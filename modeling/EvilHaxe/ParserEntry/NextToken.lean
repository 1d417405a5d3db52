/-
`parserEntry.ml`, conditional compilation: `next_token` delivers the tokens of the live code, and
collects the dead blocks with their conditions.

The input is the list of the tokens that the lexer gives, each read the way the source reads it: those
of a condition by `sharp_token` (which skips comments), the others by `token`. The grammar's `expr`,
which reads a parenthesised condition, is a parameter. An exception keeps the state, since the grammar
may recover from it. Left out are the line number that `#line` sets and the table of the files that
mention `display`.
-/
import EvilHaxe.Lib.Program
import EvilHaxe.ParserEntry.Eval

namespace EvilHaxe.ParserEntry

open EvilHaxe.Syntax

abbrev TokPos := Token × Pos

/-- What a reader of the raw stream that fails leaves of its tokens; the stream has peeked at the first
`peeked` of them and keeps these for its next reader. -/
structure Unread where
  peeked : Nat
  tokens : List TokPos

/-- What does not change while a file is read. -/
structure Context where
  Fl : Floats
  env : DefineEnv
  expr : List TokPos → Except (Exc × Unread) ((Expr × Pos) × List TokPos)
  inDisplay : Bool
  inDisplayFile : Bool
  isCompletion : Bool
  displayPosition : Pos
  moduleAttributes : List String
  eofPos : Pos

/-! ## `parse_macro_cond` -/

mutual

/-- `validate_macro_cond`, with the errors it reports. -/
def validateMacroCond : Expr → Expr × List ErrorMsg
  | .eConst (.regexp _ _) => invalidMacroCond
  | .eConst c => (.eConst c, [])
  | .eUnop op flag e1 =>
    let (e1, errors) := validateMacroCond e1
    (.eUnop op flag e1, errors)
  | .eBinop op e1 e2 =>
    let (e1, errors1) := validateMacroCond e1
    let (e2, errors2) := validateMacroCond e2
    (.eBinop op e1 e2, errors1 ++ errors2)
  | .eParenthesis e1 =>
    let (e1, errors) := validateMacroCond e1
    (.eParenthesis e1, errors)
  | .eField e1 name efk =>
    let (e1, errors) := validateMacroCond e1
    (.eField e1 name efk, errors)
  | .eCall (.eConst (.ident i)) args =>
    let (args, errors) := validateMacroConds args
    (.eCall (.eConst (.ident i)) args, errors)
  | _ => invalidMacroCond
where
  invalidMacroCond : Expr × List ErrorMsg :=
    (.eConst (.ident "false"), [.custom "Invalid conditional expression"])

def validateMacroConds : List Expr → List Expr × List ErrorMsg
  | [] => ([], [])
  | e :: el =>
    let (e, errors1) := validateMacroCond e
    let (el, errors2) := validateMacroConds el
    (e :: el, errors1 ++ errors2)

end

/-- The next token of the raw stream, `Lexer.sharp_token`. -/
def sharpToken : List TokPos → Option (TokPos × List TokPos)
  | [] => none
  | (.comment _, _) :: ts => sharpToken ts
  | t :: ts => some (t, ts)

/-- A component of a stream pattern after the first one: its failure is an error. -/
def laterComponent {α : Type} : Except (Exc × Unread) α → Except (Exc × Unread) α
  | .error (.failure, u) => .error (.streamError "", u)
  | r => r

/-- The condition, its position, the errors reported while a display request is served, and the rest
of the input. -/
abbrev CondResult := Except (Exc × Unread) ((Expr × Pos) × List ErrorMsg × List TokPos)

/-- `parse_macro_cond`. -/
def parseMacroCond (cx : Context) : List TokPos → CondResult
  | [] => .error (.failure, ⟨1, [(.eof, cx.eofPos)]⟩)
  | (.comment _, _) :: ts => parseMacroCond cx ts
  | (.const (.regexp s o), p) :: ts => .error (.failure, ⟨1, (.const (.regexp s o), p) :: ts⟩)
  | (.const c, p) :: ts => .ok ((.eConst c, p), [], ts)
  | (.kwd k, p) :: ts => .ok ((.eConst (.ident (sKeyword k)), p), [], ts)
  | (.unop op, p) :: ts => do
    let ((e, pe), errors, ts) ← laterComponent (parseMacroCond cx ts)
    .ok ((makeUnop op e, punion p pe), errors, ts)
  | (.pOpen, p1) :: ts => do
    let ((e, _), ts) ← laterComponent (cx.expr ts)
    match sharpToken ts with
    | some ((.pClose, p2), ts) =>
      let (e, errors) := validateMacroCond e
      match errors with
      | error :: _ =>
        if cx.inDisplay then .ok ((.eParenthesis e, punion p1 p2), errors, ts) else .error (.error error, ⟨0, ts⟩)
      | [] => .ok ((.eParenthesis e, punion p1 p2), [], ts)
    | some (t, ts) => .error (.streamError "", ⟨1, t :: ts⟩)
    | none => .error (.streamError "", ⟨1, [(.eof, cx.eofPos)]⟩)
  | t :: ts => .error (.failure, ⟨1, t :: ts⟩)

/-! ## The state of a run -/

/-- The state of a `dead_block_collector`. -/
structure DeadBlockCollector where
  deadBlocks : List (Pos × Expr)
  currentBlock : List (Pos × Expr)

structure State where
  /-- What is left of the file. -/
  code : List TokPos
  mstack : List Pos
  conds : ConditionHandler
  dbc : DeadBlockCollector
  lastDoc : Option (String × Int)
  syntaxErrors : List ErrorMsg
  /-- The tokens that `sraw` has peeked at and that are still to be read from it. -/
  sraw : List TokPos

/-- The state in which `parse` starts to read. -/
def State.init (code : List TokPos) : State := ⟨code, [], .init, ⟨[], []⟩, none, [], []⟩

/-- What is left of `sraw` and of the file when the tokens `ts` are still to be read, `sraw` having peeked
at `peeked` of them. -/
def State.leave (s : State) (peeked : Nat) (ts : List TokPos) : State :=
  let k := max peeked (ts.length - s.code.length)
  { s with sraw := ts.take k, code := ts.drop k }

/-- `none` is a run that does not end. -/
abbrev M := StateT State (ExceptT (Exc × State) Option)

/-- `y` returns what `x` returns. -/
def M.Below {α : Type} (x y : M α) : Prop := ∀ s r, x s = some r → y s = some r

theorem M.flat {α : Type} {R : Option α → Option α → Prop} (hbot : ∀ y, R none y) (hrefl : ∀ x, R x x) {x y : Option α}
    (h : ∀ r, x = some r → y = some r) : R x y := by
  cases x with
  | none => exact hbot y
  | some r =>
    rw [h r rfl]
    exact hrefl _

theorem M.of_flat {α : Type} {R : Option α → Option α → Prop} (hR : ∀ x y, R x y → x = none ∨ x = y) {x y : Option α}
    (h : R x y) (r : α) (hr : x = some r) : y = some r := by
  rcases hR x y h with hx | hx
  · rw [hx] at hr
    cases hr
  · exact hx ▸ hr

theorem M.Below.refl {α : Type} (x : M α) : M.Below x x := fun _ _ h => h

theorem M.Below.bind {α β : Type} {x y : M α} {f g : α → M β} (hx : M.Below x y) (hf : ∀ a, M.Below (f a) (g a)) :
    M.Below (x >>= f) (y >>= g) := by
  have hrun : ∀ (x : M α) (f : α → M β) s, (x >>= f) s =
      Option.bind (x s) fun r : Except (Exc × State) (α × State) =>
        match r with
        | .error e => some (.error e)
        | .ok a => f a.1 a.2 := by
    intro x f s
    show Option.bind _ _ = Option.bind _ _
    congr 1
    funext r
    cases r <;> rfl
  intro s r hr
  rw [hrun] at hr ⊢
  obtain ⟨q, hq, hr⟩ := Option.bind_eq_some_iff.1 hr
  refine Option.bind_eq_some_iff.2 ⟨q, hx s q hq, ?_⟩
  cases q with
  | error e => exact hr
  | ok a => exact hf a.1 a.2 r hr

def raise {α : Type} (e : Exc) : M α := fun s => some (.error (e, s))

def error {α : Type} (msg : ErrorMsg) : M α := raise (.error msg)

section

variable (cx : Context)

/-- `Lexer.token`. -/
def lexerToken : M TokPos := fun s =>
  match s.code with
  | [] => some (.ok ((.eof, cx.eofPos), s))
  | t :: ts => some (.ok (t, { s with code := ts }))

def condition : M (Expr × Pos) := fun s =>
  match parseMacroCond cx (s.sraw ++ s.code) with
  | .ok (e, errors, ts) =>
    some (.ok (e, { s.leave 0 ts with syntaxErrors := errors.reverse ++ s.syntaxErrors }))
  | .error (x, u) => some (.error (x, s.leave u.peeked u.tokens))

/-- A method of the condition handler. -/
def withConds (f : ConditionHandler → Except Exc ConditionHandler) : M Unit := fun s =>
  match f s.conds with
  | .ok conds => some (.ok ((), { s with conds }))
  | .error x => some (.error (x, s))

def condIf (e : Expr) : M Unit := withConds fun h => .ok (h.condIf e)
def condElseif (e : Expr) : M Unit := withConds fun h => h.condElseif e
def condElse : M Unit := withConds fun h => h.condElse
def condEnd : M Unit := withConds fun h => h.condEnd

/-- `open_dead_block`. -/
def openDeadBlock (p : Pos) : M Unit := fun s =>
  some (.ok ((), { s with dbc.currentBlock := (⟨p.pmax, p.pmax⟩, s.conds.getCurrentCondition) :: s.dbc.currentBlock }))

/-- `close_dead_block`. -/
def closeDeadBlock (p : Pos) : M Unit := fun s =>
  match s.dbc.currentBlock with
  | [] => some (.error (.error (.custom "Internal error: Trying to close dead block that's not open"), s))
  | (p0, cond) :: pl =>
    some (.ok ((), { s with dbc := ⟨s.dbc.deadBlocks ++ [(⟨p0.pmin, p.pmin⟩, cond)], pl⟩ }))

def getMstack : M (List Pos) := fun s => some (.ok (s.mstack, s))

def setMstack (l : List Pos) : M Unit := fun s => some (.ok ((), { s with mstack := l }))

def evalCond (e : Expr) : M Bool := fun s =>
  match eval cx.Fl cx.env e with
  | .ok v => some (.ok (isTrue v, s))
  | .error x => some (.error (x, s))

/-- `syntax_error`: raised, or recorded while a display request is served. -/
def syntaxError {α : Type} (msg : ErrorMsg) (v : α) : M α := fun s =>
  if cx.inDisplay then some (.ok (v, { s with syntaxErrors := msg :: s.syntaxErrors }))
  else some (.error (.error msg, s))

/-- The documentation that a comment sets. -/
def setDoc (s : String) (p : Pos) : M Unit := fun st =>
  match s.toList with
  | '*' :: cs =>
    let cs := if cs.getLast? = some '*' then cs.dropLast else cs
    some (.ok ((), { st with lastDoc := some (String.ofList cs, p.pmin) }))
  | _ => some (.ok ((), st))

/-! ## Errors of unknown directives -/

/-- `StringError.levenshtein`, a row of its matrix at a time. -/
def levenshtein (a b : List Char) : Nat :=
  let row (prev : List Nat) (i : Nat) (x : Char) : List Nat :=
    ((prev.zip (prev.drop 1)).zip b).foldl
      (fun r t => r ++ [min (min (t.1.2 + 1) (r.getLastD 0 + 1)) (t.1.1 + if x = t.2 then 0 else 1)]) [i + 1]
  (a.foldl (fun (acc : Nat × List Nat) x => (acc.1 + 1, row acc.2 acc.1 x)) (0, List.range (b.length + 1))).2.getLastD 0

/-- `StringError.get_similar`. -/
def getSimilar (s : String) (sl : List String) : List String :=
  let cl := (sl.map fun s2 => (s2, levenshtein s.toList s2.toList)).mergeSort (fun a b => a.2 ≤ b.2)
  (cl.takeWhile fun c => c.2 ≤ min s.length c.1.length / 3).map Prod.fst

/-- `StringError.string_error`. -/
def stringError (s : String) (sl : List String) (msg : String) : String :=
  match getSimilar s sl with
  | [] => msg
  | [s] => msg ++ " (Suggestion: " ++ s ++ ")"
  | sl => msg ++ " (Suggestions: " ++ ", ".intercalate sl ++ ")"

/-- `sharp_error`. -/
def sharpError (s : String) : ErrorMsg :=
  .custom (stringError ("#" ++ s) ["#if", "#elseif", "#else", "#end", "#error", "#line"] "Unknown token")

/-- `EvilParserEntry.check_sharp`. -/
def checkSharp (tk : TokPos) (name : String) : Option TokPos :=
  if cx.moduleAttributes.contains name then some tk else none

/-! ## Dead code -/

mutual

def enterMacro (isIf : Bool) (p : Pos) : M TokPos := do
  let (e, pe) ← condition cx
  if isIf then condIf e else condElseif e
  let tk ← lexerToken cx
  if ← evalCond cx e then
    setMstack (p :: (← getMstack))
    pure tk
  else
    openDeadBlock pe
    skipTokensLoop.call p true tk
partial_fixpoint monotonicity by
  intro H H' hle isIf p s
  have hskip : ∀ p test tk, M.Below (H.2 p test tk) (H'.2 p test tk) :=
    fun p test tk s => M.of_flat (by rintro _ _ (_ | _); exacts [.inl rfl, .inr rfl]) (hle.2 p test tk s)
  refine M.flat (fun _ => .bot) (fun _ => .refl) ((?_ : M.Below _ _) s)
  repeat' first
    | with_reducible exact .refl _
    | exact hskip _ _ _
    | refine .bind ?_ fun _ => ?_
    | split

/-- `skip_tokens_loop`: pass over dead code from the token `tk`; `test` says whether an `#elseif` or
`#else` of this level may make the code live again. -/
def skipTokensLoop (p : Pos) (test : Bool) (tk : TokPos) : M TokPos :=
  match tk.1 with
  | .sharp s =>
    if s = "end" then do
      condEnd
      closeDeadBlock tk.2
      lexerToken cx
    else if s = "elseif" ∧ test = false then do
      closeDeadBlock tk.2
      let (e, pe) ← condition cx
      condElseif e
      openDeadBlock pe
      let tk ← lexerToken cx
      skipTokensLoop.call p test tk
    else if s = "else" ∧ test = false then do
      condElse
      closeDeadBlock tk.2
      openDeadBlock tk.2
      let tk ← lexerToken cx
      skipTokensLoop.call p test tk
    else if s = "else" then do
      condElse
      closeDeadBlock tk.2
      setMstack (tk.2 :: (← getMstack))
      lexerToken cx
    else if s = "elseif" then do
      closeDeadBlock tk.2
      enterMacro.call false tk.2
    else if s = "if" then do
      let (e, pe) ← condition cx
      condIf e
      openDeadBlock pe
      let tk ← lexerToken cx
      let tk ← skipTokensLoop.call p false tk
      skipTokensLoop.call p test tk
    else if s = "error" ∨ s = "line" then do
      let tk ← lexerToken cx
      skipTokensLoop.call p test tk
    else error (sharpError s)
  | .eof => syntaxError cx .unclosedConditional tk
  | _ => do
    let tk ← lexerToken cx
    skipTokensLoop.call p test tk
partial_fixpoint monotonicity by
  intro H H' hle p test tk s
  have henter : ∀ isIf p, M.Below (H.1 isIf p) (H'.1 isIf p) :=
    fun isIf p s => M.of_flat (by rintro _ _ (_ | _); exacts [.inl rfl, .inr rfl]) (hle.1 isIf p s)
  have hskip : ∀ p test tk, M.Below (H.2 p test tk) (H'.2 p test tk) :=
    fun p test tk s => M.of_flat (by rintro _ _ (_ | _); exacts [.inl rfl, .inr rfl]) (hle.2 p test tk s)
  refine M.flat (fun _ => .bot) (fun _ => .refl) ((?_ : M.Below _ _) s)
  repeat' first
    | with_reducible exact .refl _
    | exact hskip _ _ _
    | exact henter _ _
    | refine .bind ?_ fun _ => ?_
    | split

end

/-- `skip_tokens`. -/
def skipTokens (p : Pos) (test : Bool) : M TokPos := do
  skipTokensLoop cx p test (← lexerToken cx)

/-! ## Live code -/

/-- `encloses_position`. -/
def enclosesPosition (pTarget p : Pos) : Bool :=
  pTarget.pmin != -1 && pTarget.pmax != -1 && decide (p.pmin ≤ pTarget.pmin) && decide (p.pmax ≥ pTarget.pmax)

/-- A line comment in which completion was asked for. -/
def commentCompletion (p : Pos) : Bool :=
  let p := if cx.isCompletion then ⟨p.pmin + 1, p.pmax⟩ else p
  cx.inDisplayFile && enclosesPosition cx.displayPosition p && decide (p.pmin > 0)

/-- The argument of `#line` has to be a number; the error it is otherwise. -/
def lineError : Token → Option ErrorMsg
  | .const (.int s _) =>
    match intOfString s with
    | some _ => none
    | none => some (.custom ("Could not parse ridiculous line number " ++ s))
  | t => some (.unexpected t)

def lineNumber (tk : TokPos) : M Unit :=
  match lineError tk.1 with
  | none => pure ()
  | some msg => error msg

/-- The error of `#error`, by the token after it. -/
def errorDirective : Token → ErrorMsg
  | .const (.string s _) => .custom s
  | _ => .unimplemented

mutual

def nextToken : M TokPos := do
  processToken.call (← lexerToken cx)
partial_fixpoint monotonicity by
  intro H H' hle s
  have hprocess : ∀ tk, M.Below (H.2 tk) (H'.2 tk) :=
    fun tk s => M.of_flat (by rintro _ _ (_ | _); exacts [.inl rfl, .inr rfl]) (hle.2 tk s)
  refine M.flat (fun _ => .bot) (fun _ => .refl) ((?_ : M.Below _ _) s)
  exact .bind (.refl _) fun tk => hprocess tk

def processToken (tk : TokPos) : M TokPos :=
  match tk.1 with
  | .comment s => do
    setDoc s tk.2
    nextToken.call
  | .commentLine _ => if commentCompletion cx tk.2 then raise .displayException else nextToken.call
  | .sharp s =>
    if s = "end" then do
      match ← getMstack with
      | [] => pure tk
      | _ :: l =>
        condEnd
        setMstack l
        nextToken.call
    else if s = "elseif" then do
      match ← getMstack with
      | [] => pure tk
      | _ :: l =>
        let (e, pe) ← condition cx
        condElseif e
        openDeadBlock pe
        setMstack l
        processToken.call (← skipTokens cx tk.2 false)
    else if s = "else" then do
      match ← getMstack with
      | [] => pure tk
      | _ :: l =>
        condElse
        openDeadBlock tk.2
        setMstack l
        processToken.call (← skipTokens cx tk.2 false)
    else if s = "if" then do
      processToken.call (← enterMacro cx true tk.2)
    else if s = "error" then do
      error (errorDirective (← lexerToken cx).1)
    else if s = "line" then do
      lineNumber (← nextToken.call)
      nextToken.call
    else
      match checkSharp cx tk s with
      | some t => pure t
      | none => error (sharpError s)
  | _ => pure tk
partial_fixpoint monotonicity by
  intro H H' hle tk s
  have hnext : M.Below H.1 H'.1 :=
    fun s => M.of_flat (by rintro _ _ (_ | _); exacts [.inl rfl, .inr rfl]) (hle.1 s)
  have hprocess : ∀ tk, M.Below (H.2 tk) (H'.2 tk) :=
    fun tk s => M.of_flat (by rintro _ _ (_ | _); exacts [.inl rfl, .inr rfl]) (hle.2 tk s)
  refine M.flat (fun _ => .bot) (fun _ => .refl) ((?_ : M.Below _ _) s)
  repeat' first
    | with_reducible exact .refl _
    | exact hnext
    | exact hprocess _
    | refine .bind ?_ fun _ => ?_
    | split

end

/-! ## Runs -/

/-- A token that `next_token` delivered, and what was known of the file when it did: the current
condition and the dead blocks so far. -/
structure Delivery where
  token : TokPos
  condition : Expr
  deadBlocks : List (Pos × Expr)

/-- How a run ends: at the end of the file, with the dead blocks, or by an exception. -/
inductive End where
  | eof (deadBlocks : List (Pos × Expr))
  | raised (x : Exc)

/-- Ask for tokens until the end of the file. -/
def deliveries (s : State) : Option (List Delivery × End) :=
  match nextToken cx s with
  | none => none
  | some (.error (x, _)) => some ([], .raised x)
  | some (.ok (tk, s)) =>
    if tk.1 = .eof then some ([], .eof s.dbc.deadBlocks)
    else do
      let (ds, e) ← deliveries.call s
      some (⟨tk, s.conds.getCurrentCondition, s.dbc.deadBlocks⟩ :: ds, e)
partial_fixpoint monotonicity by
  intro H H' hle s
  refine M.flat (fun _ => .bot) (fun _ => .refl) ?_
  beta_reduce
  intro r hr
  split at hr
  · exact hr
  · exact hr
  next tk s1 _ =>
    split at hr
    next htk =>
      rw [if_pos htk]
      exact hr
    next htk =>
      rw [if_neg htk]
      obtain ⟨q, hq, hr⟩ := Option.bind_eq_some_iff.1 hr
      have hle1 := M.of_flat (by rintro _ _ (_ | _); exacts [.inl rfl, .inr rfl]) (hle s1) q hq
      exact Option.bind_eq_some_iff.2 ⟨q, hle1, hr⟩

end

end EvilHaxe.ParserEntry
