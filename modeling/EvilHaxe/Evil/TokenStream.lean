/-
The methods of `TokenStream` as a mod sees them, and the runs of callbacks: one lemma for each method, and
one for a hook with a single callback.
-/
import EvilHaxe.Grammar.Runs

namespace EvilHaxe.Evil

open EvilHaxe.Syntax EvilHaxe.Grammar Lib

variable {σ α β : Type}

namespace TokenStream

def peek : Callback σ (Token × Pos) := Prog.op (S := apiSig σ) .peek

def consume : Callback σ Unit := Prog.op (S := apiSig σ) .consume

def nextExpr : Callback σ Expr := Prog.op (S := apiSig σ) .nextExpr

def parsePostExpr (e : Expr) (pmax : Int) : Callback σ Expr := Prog.op (S := apiSig σ) (.parsePostExpr e pmax)

def parsePostType (t : TypeHint) : Callback σ TypeHint := Prog.op (S := apiSig σ) (.parsePostType t)

def semicolon : Callback σ Pos := Prog.op (S := apiSig σ) .semicolon

def parseBlockInternals : Callback σ (List Expr) := Prog.op (S := apiSig σ) .parseBlockInternals

def isParsingSwitchExpr : Callback σ Bool := Prog.op (S := apiSig σ) .isParsingSwitchExpr

def getUser : Callback σ σ := Prog.op (S := apiSig σ) .getUser

def setUser (x : σ) : Callback σ Unit := Prog.op (S := apiSig σ) (.setUser x)

end TokenStream

variable {cx : Settings} {hooks : Hooks σ}

/-- A callback, run. -/
abbrev callbackRuns (cx : Settings) (hooks : Hooks σ) (p : Callback σ α) (s : State σ) :
    Option (Outcome Exc α × State σ) :=
  Prog.run (S := apiSig σ) (fun o => fullRuns cx hooks (tokenStream cx o)) p s

theorem fullRuns_callback (p : Callback σ α) (s : State σ) :
    fullRuns cx hooks (callback cx p) s = callbackRuns cx hooks p s :=
  Prog.run_interp _ p s

section

variable (s : State σ)

@[simp] theorem callbackRuns_pure (a : α) :
    callbackRuns cx hooks (pure a : Callback σ α) s = some (.ok a, s) := rfl

@[simp] theorem callbackRuns_bind (p : Callback σ α) (k : α → Callback σ β) :
    callbackRuns cx hooks (p >>= k) s =
      Prog.andThen (callbackRuns cx hooks p s) (fun a s => callbackRuns cx hooks (k a) s)
        fun s => some (.fail, s) :=
  Prog.run_bind p k s

@[simp] theorem callbackRuns_peek :
    callbackRuns cx hooks TokenStream.peek s = some (.ok (s.peek cx), s) :=
  (Prog.run_op (S := apiSig σ) .peek s).trans ((fullRuns_plain s _).trans (runs_peek s))

@[simp] theorem callbackRuns_consume :
    callbackRuns cx hooks TokenStream.consume s = some (.ok (), s.junk cx) :=
  (Prog.run_op (S := apiSig σ) .consume s).trans ((fullRuns_plain s _).trans (runs_junk s))

@[simp] theorem callbackRuns_nextExpr :
    callbackRuns cx hooks TokenStream.nextExpr s = parse cx hooks .secureExpr s :=
  (Prog.run_op (S := apiSig σ) .nextExpr s).trans ((fullRuns_plain s _).trans (runs_secureExpr s))

@[simp] theorem callbackRuns_isParsingSwitchExpr :
    callbackRuns cx hooks TokenStream.isParsingSwitchExpr s = some (.ok s.parsingSwitchExpr, s) :=
  (Prog.run_op (S := apiSig σ) .isParsingSwitchExpr s).trans
    ((fullRuns_plain s _).trans ((Prog.run_op _ s).trans (by rw [exec_eq]; rfl)))

@[simp] theorem callbackRuns_semicolon :
    callbackRuns cx hooks TokenStream.semicolon s = runs cx hooks (Grammar.semicolon cx) s :=
  (Prog.run_op (S := apiSig σ) .semicolon s).trans (fullRuns_plain s _)

@[simp] theorem callbackRuns_parseBlockInternals :
    callbackRuns cx hooks TokenStream.parseBlockInternals s = parse cx hooks .parseBlockInternals s :=
  (Prog.run_op (S := apiSig σ) .parseBlockInternals s).trans ((fullRuns_plain s _).trans (runs_nt s _))

/-- The value of a callback on its way to the compiler. -/
def decoding (recode : α → Except Exc α) (go : State σ → Option (Outcome Exc α × State σ)) :
    Option α → State σ → Option (Outcome Exc α × State σ)
  | none, s => go s
  | some a, s =>
    match recode a with
    | .ok a => some (.ok a, s)
    | .error e => some (.error e, s)

/-- The first callback of a hook: without a result the others are asked. -/
theorem run_hooked_cons (H : Handler (fullSig σ) Exc (State σ)) (recode : α → Except Exc α) (h : Callback σ (Option α))
    (hs : List (Callback σ (Option α))) (p : P α) :
    (hooked cx recode (h :: hs) p).run H s =
      Prog.andThen ((callback cx h).run H s) (decoding recode ((hooked cx recode hs p).run H)) fun s => some (.fail, s) := by
  rw [hooked, List.map_cons, Grammar.callHooks, Prog.run_bind, Prog.run_bind, decoded, Prog.run_bind]
  simp only [Prog.andThen_assoc]
  congr 1
  funext a s
  cases a with
  | none =>
    rw [decoding, hooked, Prog.run_bind]
    rfl
  | some a =>
    rw [decoding]
    simp only [plain, decode, Prog.run_inl, Grammar.ofExcept]
    cases recode a with
    | error e => rfl
    | ok a => cases hs <;> rfl

theorem fullRuns_hooked_cons (recode : α → Except Exc α) (h : Callback σ (Option α)) (hs : List (Callback σ (Option α)))
    (p : P α) :
    fullRuns cx hooks (hooked cx recode (h :: hs) p) s =
      Prog.andThen (callbackRuns cx hooks h s) (decoding recode (fullRuns cx hooks (hooked cx recode hs p)))
        fun s => some (.fail, s) :=
  (run_hooked_cons s _ recode h hs p).trans (by rw [← fullRuns_callback])

/-- A hook with one callback. -/
theorem fullRuns_hooked_single (recode : α → Except Exc α) (h : Callback σ (Option α)) (p : P α) :
    fullRuns cx hooks (hooked cx recode [h] p) s =
      Prog.andThen (callbackRuns cx hooks h s) (decoding recode (runs cx hooks p)) fun s => some (.fail, s) := by
  have hnil : fullRuns cx hooks (hooked cx recode [] p) = runs cx hooks p :=
    funext fun s => fullRuns_hooked_nil s recode p
  rw [fullRuns_hooked_cons, hnil]

/-- Callbacks without a result, which leave the stream where it is. -/
theorem fullRuns_hooked_passed (recode : α → Except Exc α) {hs : List (Callback σ (Option α))} (p : P α)
    (h : ∀ c ∈ hs, callbackRuns cx hooks c s = some (.ok none, s)) :
    fullRuns cx hooks (hooked cx recode hs p) s = runs cx hooks p s := by
  induction hs with
  | nil => exact fullRuns_hooked_nil s recode p
  | cons c hs ih =>
    rw [fullRuns_hooked_cons, h c List.mem_cons_self, Prog.andThen_ok]
    exact ih fun c' hc => h c' (List.mem_cons_of_mem _ hc)

/-- `expr_next` behind such callbacks. -/
theorem parse_exprNext_passed {s s' : State σ} {e r : Expr} {pmax : Int}
    (hpassed : ∀ h ∈ hooks.onExprNext, callbackRuns cx hooks (h e pmax) s = some (.ok none, s))
    (hr : runs cx hooks (exprNext' cx e pmax) s = some (.ok r, s')) :
    parse cx hooks (.exprNext e pmax) s = some (.ok r, s') := by
  have hr' : parse cx hooks (.exprNext' e pmax) s = some (.ok r, s') := by rw [parse_plain s rfl, hr]
  have hrecover := @runs_recover σ cx hooks s (.exprNext' e pmax) fun e => cx.inDisplay && isStreamError e
  rw [hr'] at hrecover
  rw [parse_hook, hookBody, fullRuns_hooked_passed s recodeExpr _ ?_, tryExprNext', runs_bind]
  · exact congrArg (Prog.andThen · _ _) hrecover
  · intro c hc
    obtain ⟨h, hmem, rfl⟩ := List.mem_map.1 hc
    exact hpassed h hmem

end

end EvilHaxe.Evil
