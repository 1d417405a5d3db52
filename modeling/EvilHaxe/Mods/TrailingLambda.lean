/-
The mod `trailing_lambda`: `callee { a, b -> … }` is the callee with an arrow function as its last argument.

The scan for parameters cannot put an identifier back. One that is followed by neither a comma nor an arrow becomes the
  first
statement of the body, even if parameters have been read before it.
-/
import EvilHaxe.Evil.TokenStream
import EvilHaxe.Evil.Kept
import EvilHaxe.Grammar.Chains

namespace EvilHaxe.Mods

open EvilHaxe.Syntax EvilHaxe.Evil EvilHaxe.Grammar Lib

namespace TrailingLambda

variable {σ : Type}

/-- The loop for the parameters: those read, and the identifier with which it ended. It reads two tokens or ends in each
of its rounds. -/
def scanArgs : Nat → List String → Bool → Callback σ (List String × Option (String × Pos))
  | 0, _, _ => .fail
  | rounds + 1, args, expectIdent => do
    let t ← TokenStream.peek
    match t.1 with
    | .const (.ident n) => do
      TokenStream.consume
      match (← TokenStream.peek).1 with
      | .comma => do
        TokenStream.consume
        scanArgs rounds (args ++ [n]) true
      | .arrow => do
        TokenStream.consume
        pure (args ++ [n], none)
      | _ => pure (args, some (n, t.2))
    | _ =>
      if expectIdent then Prog.raise (.modError "[trailing_lambda] Identifier expected")
      else pure (args, none)

/-- The first expression, if an identifier was parsed that is no argument. -/
def firstExpr : Option (String × Pos) → Callback σ (List Expr)
  | none => pure []
  | some (n, p) => do
    let e ← TokenStream.parsePostExpr (.eConst (.ident n)) p.pmax
    let _ ← TokenStream.semicolon
    pure [e]

/-- The rest of the block, after its first expression. -/
def block (first : List Expr) : Callback σ (List Expr) := do
  match (← TokenStream.peek).1 with
  | .brClose => do
    TokenStream.consume
    pure first
  | _ => do
    let content ← TokenStream.parseBlockInternals
    match (← TokenStream.peek).1 with
    | .brClose => do
      TokenStream.consume
      pure (first ++ content)
    | _ => Prog.raise (.modError "[trailing_lambda] Expected \x7d")

/-- The argument: an arrow function, which returns its body if that is one expression. -/
def functionExpr (args : List String) (content : List Expr) : Expr :=
  let blockExpr := match content with
    | [e] => .eReturn (some e)
    | _ => .eBlock content
  .eFunction .fkArrow (.mk [] (args.map fun a => .mk a false [] none none) none (some blockExpr))

/-- The call with one more argument. -/
def withArgument (expr f : Expr) : Expr :=
  match expr with
  | .eCall called args => .eCall called (args ++ [f])
  | _ => .eCall expr [f]

/-- The loop is run for at most `rounds` rounds. -/
def onAfterExpr (rounds : Nat) (expr : Expr) : Callback σ (Option Expr) := do
  if ← TokenStream.isParsingSwitchExpr then pure none
  else if isDollarIdent expr then pure none
  else
    match (← TokenStream.peek).1 with
    | .brOpen => do
      TokenStream.consume
      let (args, ident) ← scanArgs rounds [] false
      let first ← firstExpr ident
      let content ← block first
      pure (some (withArgument expr (functionExpr args content)))
    | _ => pure none

/-- What `init` adds. -/
def mod (rounds : Nat) : ParserMod (CallbackType σ) := { onExprNext := some fun expr _ => onAfterExpr rounds expr }

variable {cx : Settings} {hooks : Hooks σ}

/-! ## The grammar of a trailing lambda -/

/-- An identifier before the state `s'`. -/
def Ident (cx : Settings) (s : State σ) (n : String) (s' : State σ) : Prop :=
  (s.peek cx).1 = .const (.ident n) ∧ s' = s.junk cx

/-- `i1, .., in ->` -/
inductive Params (cx : Settings) : State σ → List String → State σ → Prop where
  | last {s s1 : State σ} {n : String} : Ident cx s n s1 → (s1.peek cx).1 = .arrow → Params cx s [n] (s1.junk cx)
  | cons {s s1 s' : State σ} {n : String} {names : List String} : Ident cx s n s1 → (s1.peek cx).1 = .comma →
      Params cx (s1.junk cx) names s' → Params cx s (n :: names) s'

/-- `i1, .., in,` -/
inductive Commas (cx : Settings) : State σ → List String → State σ → Prop where
  | nil {s : State σ} : Commas cx s [] s
  | cons {s s1 s' : State σ} {n : String} {names : List String} : Ident cx s n s1 → (s1.peek cx).1 = .comma →
      Commas cx (s1.junk cx) names s' → Commas cx s (n :: names) s'

/-- The end of a body: `}`, or statements before it. -/
inductive Closed (cx : Settings) (hooks : Hooks σ) : State σ → List Expr → State σ → Prop where
  | empty {s : State σ} : (s.peek cx).1 = .brClose → Closed cx hooks s [] (s.junk cx)
  | block {s s1 : State σ} {content : List Expr} : (s.peek cx).1 ≠ .brClose →
      parse cx hooks .parseBlockInternals s = some (.ok content, s1) → (s1.peek cx).1 = .brClose →
      Closed cx hooks s content (s1.junk cx)

/-- A body that starts with an identifier: its first statement is what `expr_next` makes of it. -/
inductive FromIdent (cx : Settings) (hooks : Hooks σ) (n : String) (pmax : Int) : State σ → List Expr → State σ → Prop
  where
  | mk {s s1 s2 s' : State σ} {e : Expr} {p : Pos} {content : List Expr} :
      parse cx hooks (.exprNext (.eConst (.ident n)) pmax) s = some (.ok e, s1) →
      runs cx hooks (semicolon cx) s1 = some (.ok p, s2) → Closed cx hooks s2 content s' →
      FromIdent cx hooks n pmax s (e :: content) s'

/-- The statements of a body, and the state after its `}`. -/
inductive Body (cx : Settings) (hooks : Hooks σ) (s : State σ) : List Expr → State σ → Prop where
  | ident {s1 s' : State σ} {n : String} {content : List Expr} : Ident cx s n s1 →
      FromIdent cx hooks n (s.peek cx).2.pmax s1 content s' → Body cx hooks s content s'
  | other {content : List Expr} {s' : State σ} : (∀ n s1, ¬ Ident cx s n s1) → Closed cx hooks s content s' →
      Body cx hooks s content s'

/-- What a trailing lambda is, after its `{`: a list of parameters and a body, or a body alone,
  which does not begin like a
list of parameters. -/
inductive Accepts (cx : Settings) (hooks : Hooks σ) (expr : Expr) (s : State σ) : Expr → State σ → Prop where
  | params {names : List String} {s1 s' : State σ} {content : List Expr} : Params cx s names s1 →
      Closed cx hooks s1 content s' → Accepts cx hooks expr s (withArgument expr (functionExpr names content)) s'
  | body {content : List Expr} {s' : State σ} :
      (∀ n s1, Ident cx s n s1 → (s1.peek cx).1 ≠ .comma ∧ (s1.peek cx).1 ≠ .arrow) → Body cx hooks s content s' →
      Accepts cx hooks expr s (withArgument expr (functionExpr [] content)) s'

/-! ## The body -/

theorem callbackRuns_parsePostExpr (n : String) (pmax : Int) (s : State σ) :
    callbackRuns cx hooks (TokenStream.parsePostExpr (.eConst (.ident n)) pmax) s =
      parse cx hooks (.exprNext (.eConst (.ident n)) pmax) s := by
  have hrecode : recodeExpr (.eConst (.ident n)) = .ok (.eConst (.ident n)) := (recode_expr _).2 rfl
  refine (Prog.run_op (S := apiSig σ) (.parsePostExpr _ pmax) s).trans ((fullRuns_plain s _).trans ?_)
  rw [hrecode]
  exact runs_exprNext s _ _

theorem callbackRuns_closing (content : List Expr) (s : State σ) :
    callbackRuns cx hooks (do
      TokenStream.consume
      pure content) s = some (.ok content, s.junk cx) := by
  rw [callbackRuns_bind, callbackRuns_consume, Prog.andThen_ok, callbackRuns_pure]

theorem block_iff (first : List Expr) (s s' : State σ) (content : List Expr) :
    callbackRuns cx hooks (block first) s = some (.ok content, s') ↔
      ∃ rest, content = first ++ rest ∧ Closed cx hooks s rest s' := by
  unfold block
  rw [callbackRuns_bind, callbackRuns_peek, Prog.andThen_ok]
  split
  · next hclose =>
    simp only [callbackRuns_closing, Option.some.injEq, Prod.mk.injEq, Outcome.ok.injEq]
    constructor
    · rintro ⟨rfl, rfl⟩
      exact ⟨[], (List.append_nil _).symm, .empty hclose⟩
    · rintro ⟨rest, rfl, h⟩
      cases h with
      | empty => exact ⟨(List.append_nil _).symm, rfl⟩
      | block hne => exact absurd hclose hne
  · next hclose =>
    rw [callbackRuns_bind, callbackRuns_parseBlockInternals]
    constructor
    · intro h
      rcases Prog.andThen_eq_some h with ⟨rest, s1, h1, h⟩ | ⟨s1, -, h⟩ | ⟨e, s1, -, h⟩
      · rw [callbackRuns_bind, callbackRuns_peek, Prog.andThen_ok] at h
        split at h
        · next hend =>
          rw [callbackRuns_closing] at h
          cases h
          exact ⟨rest, rfl, .block hclose h1 hend⟩
        · cases h
      · cases h
      · cases h
    · rintro ⟨rest, rfl, h⟩
      cases h with
      | empty he => exact absurd he hclose
      | block hne h1 hend =>
        rw [h1, Prog.andThen_ok, callbackRuns_bind, callbackRuns_peek, Prog.andThen_ok, hend]
        exact callbackRuns_closing _ _

theorem firstExpr_iff (n : String) (p : Pos) (s s' : State σ) (content : List Expr) :
    (∃ first s1, callbackRuns cx hooks (firstExpr (some (n, p))) s = some (.ok first, s1) ∧
      callbackRuns cx hooks (block first) s1 = some (.ok content, s')) ↔ FromIdent cx hooks n p.pmax s content s' := by
  simp only [block_iff]
  unfold firstExpr
  rw [callbackRuns_bind, callbackRuns_parsePostExpr]
  constructor
  · rintro ⟨first, s2, hfirst, rest, rfl, hclosed⟩
    rcases Prog.andThen_eq_some hfirst with ⟨e, s1, h1, h⟩ | ⟨_, -, h⟩ | ⟨_, _, -, h⟩
    · rw [callbackRuns_bind, callbackRuns_semicolon] at h
      rcases Prog.andThen_eq_some h with ⟨q, s3, h3, h⟩ | ⟨_, -, h⟩ | ⟨_, _, -, h⟩
      · cases h
        exact .mk h1 h3 hclosed
      · cases h
      · cases h
    · cases h
    · cases h
  · rintro ⟨h1, h2, hclosed⟩
    refine ⟨[_], _, ?_, _, rfl, hclosed⟩
    rw [h1, Prog.andThen_ok, callbackRuns_bind, callbackRuns_semicolon, h2]
    rfl

/-! ## The loop -/

/-- How the loop ends, from a state with the parameters `args`. -/
inductive Scanned (cx : Settings) (hooks : Hooks σ) (args : List String) (expectIdent : Bool) (s : State σ) :
    Option (Outcome Exc (List String × Option (String × Pos)) × State σ) → Prop where
  | params {names : List String} {s' : State σ} : Params cx s names s' →
      Scanned cx hooks args expectIdent s (some (.ok (args ++ names, none), s'))
  | ident {names : List String} {s1 s' : State σ} {n : String} : Commas cx s names s1 → Ident cx s1 n s' →
      (s'.peek cx).1 ≠ .comma → (s'.peek cx).1 ≠ .arrow →
      Scanned cx hooks args expectIdent s (some (.ok (args ++ names, some (n, (s1.peek cx).2)), s'))
  | other : (∀ n s1, ¬ Ident cx s n s1) → expectIdent = false →
      Scanned cx hooks args expectIdent s (some (.ok (args, none), s))
  | rejected {names : List String} {s1 : State σ} {e : Exc} : Commas cx s names s1 → (∀ n s2, ¬ Ident cx s1 n s2) →
      (expectIdent = true ∨ names ≠ []) → Scanned cx hooks args expectIdent s (some (.error e, s1))

/-- A round that has read a parameter and a comma. -/
theorem Scanned.cons {args : List String} {expectIdent : Bool} {s s1 : State σ} {n : String}
    {r : Option (Outcome Exc (List String × Option (String × Pos)) × State σ)} (hn : Ident cx s n s1)
    (hcomma : (s1.peek cx).1 = .comma) (h : Scanned cx hooks (args ++ [n]) true (s1.junk cx) r) :
    Scanned cx hooks args expectIdent s r := by
  cases h with
  | params hp =>
    rw [List.append_assoc]
    exact .params (.cons hn hcomma hp)
  | ident hc hi h1 h2 =>
    rw [List.append_assoc]
    exact .ident (.cons hn hcomma hc) hi h1 h2
  | other _ hfalse => cases hfalse
  | rejected hc hi _ => exact .rejected (.cons hn hcomma hc) hi (.inr (List.cons_ne_nil _ _))

/-- The loop ends within as many rounds as there are tokens, and one more. -/
theorem scan_spec : ∀ (rounds : Nat) (args : List String) (expectIdent : Bool) (s : State σ), s.toks.length < rounds →
    Scanned cx hooks args expectIdent s (callbackRuns cx hooks (scanArgs rounds args expectIdent) s)
  | 0, _, _, _, h => by cases h
  | rounds + 1, args, expectIdent, s, h => by
    unfold scanArgs
    rw [callbackRuns_bind, callbackRuns_peek, Prog.andThen_ok]
    split
    · next n hn =>
      rw [callbackRuns_bind, callbackRuns_consume, Prog.andThen_ok, callbackRuns_bind, callbackRuns_peek,
        Prog.andThen_ok]
      have hlt := junk_length hn Token.noConfusion
      split
      · next hcomma =>
        rw [callbackRuns_bind, callbackRuns_consume, Prog.andThen_ok]
        have hlt' := junk_length hcomma Token.noConfusion
        exact .cons ⟨hn, rfl⟩ hcomma (scan_spec rounds (args ++ [n]) true ((s.junk cx).junk cx) (by omega))
      · next harrow =>
        rw [callbackRuns_bind, callbackRuns_consume, Prog.andThen_ok, callbackRuns_pure]
        exact .params (.last ⟨hn, rfl⟩ harrow)
      · next hcomma harrow =>
        rw [callbackRuns_pure]
        have := @Scanned.ident σ cx hooks args expectIdent s [] s (s.junk cx) n .nil ⟨hn, rfl⟩ hcomma harrow
        rwa [List.append_nil] at this
    · next hn =>
      have hi : ∀ n s1, ¬ Ident cx s n s1 := fun n s1 h => hn n h.1
      cases expectIdent with
      | true => exact .rejected .nil hi (.inl rfl)
      | false => exact .other hi rfl

/-! ## The claim of the mod -/

theorem Ident.unique {s s1 s2 : State σ} {n m : String} (h1 : Ident cx s n s1) (h2 : Ident cx s m s2) :
    n = m ∧ s1 = s2 := by
  obtain ⟨h1, rfl⟩ := h1
  obtain ⟨h2, rfl⟩ := h2
  rw [h1] at h2
  cases h2
  exact ⟨rfl, rfl⟩

/-- A list of identifiers and commas that an identifier ends, with neither a comma nor an arrow after it. -/
def Slip (cx : Settings) (s : State σ) : Prop :=
  ∃ names s1 n s2, names ≠ [] ∧ Commas cx s names s1 ∧ Ident cx s1 n s2 ∧
    (s2.peek cx).1 ≠ .comma ∧ (s2.peek cx).1 ≠ .arrow

theorem Params.unique {s s1 s2 : State σ} {names names' : List String} (h1 : Params cx s names s1)
    (h2 : Params cx s names' s2) : names = names' ∧ s1 = s2 := by
  induction h1 generalizing names' with
  | last hn ha =>
    cases h2 with
    | last hn' ha' =>
      obtain ⟨rfl, rfl⟩ := hn.unique hn'
      exact ⟨rfl, rfl⟩
    | cons hn' hc' =>
      obtain ⟨rfl, rfl⟩ := hn.unique hn'
      rw [ha] at hc'
      cases hc'
  | cons hn hc _ ih =>
    cases h2 with
    | last hn' ha' =>
      obtain ⟨rfl, rfl⟩ := hn.unique hn'
      rw [hc] at ha'
      cases ha'
    | cons hn' hc' h2 =>
      obtain ⟨rfl, rfl⟩ := hn.unique hn'
      obtain ⟨rfl, rfl⟩ := ih h2
      exact ⟨rfl, rfl⟩

/-- A list of parameters goes on after its commas. -/
theorem Params.after {s s1 s' : State σ} {pre names : List String} (hc : Commas cx s pre s1)
    (h : Params cx s names s') : ∃ rest, Params cx s1 rest s' := by
  induction hc generalizing names with
  | nil => exact ⟨names, h⟩
  | cons hn hcomma _ ih =>
    cases h with
    | last hn' ha =>
      obtain ⟨rfl, rfl⟩ := hn.unique hn'
      rw [hcomma] at ha
      cases ha
    | cons hn' _ h =>
      obtain ⟨rfl, rfl⟩ := hn.unique hn'
      exact ih h

theorem Params.head {s s' : State σ} {names : List String} (h : Params cx s names s') :
    ∃ n s1, Ident cx s n s1 ∧ ((s1.peek cx).1 = .comma ∨ (s1.peek cx).1 = .arrow) := by
  cases h with
  | last hn ha => exact ⟨_, _, hn, .inr ha⟩
  | cons hn hc => exact ⟨_, _, hn, .inl hc⟩

theorem Commas.head {s s' : State σ} {names : List String} (h : Commas cx s names s') (hne : names ≠ []) :
    ∃ n s1, Ident cx s n s1 ∧ (s1.peek cx).1 = .comma := by
  cases h with
  | nil => exact absurd rfl hne
  | cons hn hc => exact ⟨_, _, hn, hc⟩

/-- Such a list is no trailing lambda. -/
theorem not_accepts_of_slip {expr e' : Expr} {s s' : State σ} (h : Slip cx s) : ¬ Accepts cx hooks expr s e' s' := by
  obtain ⟨names, s1, n, s2, hne, hc, hn, hcomma, harrow⟩ := h
  intro haccepts
  cases haccepts with
  | params hp _ =>
    obtain ⟨rest, hrest⟩ := Params.after hc hp
    obtain ⟨m, s3, hm, h⟩ := hrest.head
    obtain ⟨rfl, rfl⟩ := hn.unique hm
    exact h.elim hcomma harrow
  | body hb _ =>
    obtain ⟨m, s3, hm, h⟩ := hc.head hne
    exact (hb m s3 hm).1 h

/-- The callback from the end of the loop on. -/
theorem onAfterExpr_scanned {rounds : Nat} {expr : Expr} {s : State σ} (hswitch : s.parsingSwitchExpr = false)
    (hexpr : isDollarIdent expr = false) (hopen : (s.peek cx).1 = .brOpen) :
    callbackRuns cx hooks (onAfterExpr rounds expr) s =
      Prog.andThen (callbackRuns cx hooks (scanArgs rounds [] false) (s.junk cx))
        (fun r s => callbackRuns cx hooks (do
          let first ← firstExpr r.2
          let content ← block first
          pure (some (withArgument expr (functionExpr r.1 content)))) s) fun s => some (.fail, s) := by
  unfold onAfterExpr
  rw [callbackRuns_bind, callbackRuns_isParsingSwitchExpr, Prog.andThen_ok, hswitch, if_neg Bool.false_ne_true, hexpr,
    if_neg Bool.false_ne_true, callbackRuns_bind, callbackRuns_peek, Prog.andThen_ok, hopen]
  simp only [callbackRuns_bind, callbackRuns_consume, Prog.andThen_ok]

/-- The call that the callback returns after its body. -/
theorem content_iff (expr : Expr) (args : List String) (ident : Option (String × Pos)) (s s' : State σ)
    (e : Option Expr) :
    callbackRuns cx hooks (do
        let first ← firstExpr ident
        let content ← block first
        pure (some (withArgument expr (functionExpr args content)))) s = some (.ok e, s') ↔
      ∃ content, e = some (withArgument expr (functionExpr args content)) ∧
        match ident with
        | none => Closed cx hooks s content s'
        | some (n, p) => FromIdent cx hooks n p.pmax s content s' := by
  have hrun : callbackRuns cx hooks (do
        let first ← firstExpr ident
        let content ← block first
        pure (some (withArgument expr (functionExpr args content)))) s = some (.ok e, s') ↔
      ∃ content, e = some (withArgument expr (functionExpr args content)) ∧ ∃ first s1,
        callbackRuns cx hooks (firstExpr ident) s = some (.ok first, s1) ∧
          callbackRuns cx hooks (block first) s1 = some (.ok content, s') := by
    rw [callbackRuns_bind]
    constructor
    · intro h
      rcases Prog.andThen_eq_some h with ⟨first, s1, h1, h⟩ | ⟨_, -, h⟩ | ⟨_, _, -, h⟩
      · rw [callbackRuns_bind] at h
        rcases Prog.andThen_eq_some h with ⟨content, s2, h2, h⟩ | ⟨_, -, h⟩ | ⟨_, _, -, h⟩
        · cases h
          exact ⟨content, rfl, first, s1, h1, h2⟩
        · cases h
        · cases h
      · cases h
      · cases h
    · rintro ⟨content, rfl, first, s1, h1, h2⟩
      rw [h1, Prog.andThen_ok, callbackRuns_bind, h2]
      rfl
  rw [hrun]
  refine exists_congr fun content => and_congr_right fun _ => ?_
  cases ident with
  | none =>
    constructor
    · rintro ⟨first, s1, h1, h2⟩
      cases h1
      obtain ⟨rest, rfl, h⟩ := (block_iff _ _ _ _).1 h2
      exact h
    · exact fun h => ⟨[], s, rfl, (block_iff _ _ _ _).2 ⟨content, rfl, h⟩⟩
  | some r => exact firstExpr_iff r.1 r.2 s s' content

/-- Outside of the subject of a `switch`, and after a callee that is no `$` identifier, the callback accepts exactly the
trailing lambdas, unless the tokens are a list of identifiers and commas that an identifier ends without an arrow. -/
theorem onAfterExpr_accepts {rounds : Nat} {expr : Expr} {s : State σ} (hrounds : s.toks.length ≤ rounds)
    (hswitch : s.parsingSwitchExpr = false) (hexpr : isDollarIdent expr = false) (hopen : (s.peek cx).1 = .brOpen)
    (hslip : ¬ Slip cx (s.junk cx)) (e : Option Expr) (s' : State σ) :
    callbackRuns cx hooks (onAfterExpr rounds expr) s = some (.ok e, s') ↔
      ∃ e', e = some e' ∧ Accepts cx hooks expr (s.junk cx) e' s' := by
  rw [onAfterExpr_scanned hswitch hexpr hopen]
  have hscan := @scan_spec σ cx hooks rounds [] false (s.junk cx)
    (Nat.lt_of_lt_of_le (junk_length hopen Token.noConfusion) hrounds)
  generalize callbackRuns cx hooks (scanArgs rounds [] false) (s.junk cx) = r at hscan
  cases hscan with
  | @params names s1 hp =>
    rw [Prog.andThen_ok, content_iff]
    constructor
    · rintro ⟨content, rfl, h⟩
      exact ⟨_, rfl, .params hp h⟩
    · rintro ⟨e', rfl, h⟩
      cases h with
      | params hp' hc =>
        obtain ⟨rfl, rfl⟩ := hp.unique hp'
        exact ⟨_, rfl, hc⟩
      | body hb _ =>
        obtain ⟨n, s2, hn, h⟩ := hp.head
        obtain ⟨h1, h2⟩ := hb n s2 hn
        exact absurd h (not_or.2 ⟨h1, h2⟩)
  | @ident names s1 s2 n hc hi h1 h2 =>
    have hnames : names = [] := by
      by_contra hne
      exact hslip ⟨names, s1, n, s2, hne, hc, hi, h1, h2⟩
    subst hnames
    cases hc
    rw [Prog.andThen_ok, content_iff]
    have hbody : ∀ m s3, Ident cx (s.junk cx) m s3 → (s3.peek cx).1 ≠ .comma ∧ (s3.peek cx).1 ≠ .arrow := by
      intro m s3 hm
      obtain ⟨rfl, rfl⟩ := hi.unique hm
      exact ⟨h1, h2⟩
    constructor
    · rintro ⟨content, rfl, h⟩
      exact ⟨_, rfl, .body hbody (.ident hi h)⟩
    · rintro ⟨e', rfl, h⟩
      cases h with
      | params hp' _ =>
        obtain ⟨m, s3, hm, h⟩ := hp'.head
        exact absurd h (not_or.2 (hbody m s3 hm))
      | body _ hb =>
        cases hb with
        | ident hm h =>
          obtain ⟨rfl, rfl⟩ := hi.unique hm
          exact ⟨_, rfl, h⟩
        | other hno _ => exact absurd hi (hno _ _)
  | other hno _ =>
    rw [Prog.andThen_ok, content_iff]
    constructor
    · rintro ⟨content, rfl, h⟩
      exact ⟨_, rfl, .body (fun n s1 hn => absurd hn (hno n s1)) (.other hno h)⟩
    · rintro ⟨e', rfl, h⟩
      cases h with
      | params hp' _ =>
        obtain ⟨m, s3, hm, -⟩ := hp'.head
        exact absurd hm (hno m s3)
      | body _ hb =>
        cases hb with
        | ident hm _ => exact absurd hm (hno _ _)
        | other _ h => exact ⟨_, rfl, h⟩
  | @rejected names s1 x hc hno hne =>
    rw [Prog.andThen_error]
    refine iff_of_false nofun ?_
    rintro ⟨e', rfl, h⟩
    cases h with
    | params hp' _ =>
      obtain ⟨rest, hrest⟩ := Params.after hc hp'
      obtain ⟨m, s3, hm, -⟩ := hrest.head
      exact hno m s3 hm
    | body hb _ =>
      obtain ⟨n, s2, hn, h⟩ := hc.head (hne.resolve_left Bool.false_ne_true)
      exact (hb n s2 hn).1 h

/-- The subject of a `switch`, and a `$` identifier, do not go on with a lambda. -/
theorem onAfterExpr_guarded {rounds : Nat} {expr : Expr} {s : State σ}
    (h : s.parsingSwitchExpr = true ∨ isDollarIdent expr = true) :
    callbackRuns cx hooks (onAfterExpr rounds expr) s = some (.ok none, s) := by
  unfold onAfterExpr
  rw [callbackRuns_bind, callbackRuns_isParsingSwitchExpr, Prog.andThen_ok]
  cases hswitch : s.parsingSwitchExpr with
  | true => rfl
  | false =>
    rw [if_neg Bool.false_ne_true, if_pos (h.resolve_left (by simp [hswitch]))]
    rfl

/-- Before any other token the mod is not there. -/
theorem onAfterExpr_other {rounds : Nat} {expr : Expr} {s : State σ} (h : (s.peek cx).1 ≠ .brOpen) :
    callbackRuns cx hooks (onAfterExpr rounds expr) s = some (.ok none, s) := by
  by_cases hguard : s.parsingSwitchExpr = true ∨ isDollarIdent expr = true
  · exact onAfterExpr_guarded hguard
  · obtain ⟨hswitch, hexpr⟩ := not_or.1 hguard
    unfold onAfterExpr
    rw [callbackRuns_bind, callbackRuns_isParsingSwitchExpr, Prog.andThen_ok, if_neg hswitch, if_neg hexpr,
      callbackRuns_bind, callbackRuns_peek, Prog.andThen_ok]
    split
    · exact absurd ‹_› h
    · rfl

/-- The callback accepts the trailing lambdas, and nothing else. -/
def AcceptsExactly (cx : Settings) (hooks : Hooks σ) (rounds : Nat) (expr : Expr) (s : State σ) : Prop :=
  ∀ e s', callbackRuns cx hooks (onAfterExpr rounds expr) s = some (.ok e, s') ↔
    ∃ e', e = some e' ∧ Accepts cx hooks expr (s.junk cx) e' s'

/-- What the callback does at a `{`. -/
theorem onAfterExpr_grammar {rounds : Nat} {s : State σ} (expr : Expr) (hrounds : s.toks.length ≤ rounds)
    (hopen : (s.peek cx).1 = .brOpen) :
    (s.parsingSwitchExpr = true ∨ isDollarIdent expr = true →
      callbackRuns cx hooks (onAfterExpr rounds expr) s = some (.ok none, s)) ∧
    (s.parsingSwitchExpr = false → isDollarIdent expr = false → ¬ Slip cx (s.junk cx) →
      AcceptsExactly cx hooks rounds expr s) :=
  ⟨onAfterExpr_guarded, fun hswitch hexpr hslip => onAfterExpr_accepts hrounds hswitch hexpr hopen hslip⟩

/-! ## Lambdas of a few tokens -/

/-- The hooks of a file with this mod alone. -/
def installed (rounds : Nat) : Hooks Unit := applyMod (mod rounds) initialHooks

def tok (t : Token) : Token × Pos := (t, nullPos)

/-- Before the tokens, outside of a `switch`. -/
def start (toks : TokenList) : State Unit := ⟨toks, tok .eof, false, [], (), []⟩

/-- `{ a -> }` -/
def paramToks : TokenList := [tok .brOpen, identTok "a", tok .arrow, tok .brClose]

theorem grammar_params :
    AcceptsExactly plainSettings (installed 4) 4 (identExpr "f") (start paramToks) := by
  refine (onAfterExpr_grammar _ (by decide) rfl).2 rfl rfl ?_
  rintro ⟨names, s1, n, s2, hne, hc, -⟩
  obtain ⟨m, s3, ⟨-, rfl⟩, hcomma⟩ := hc.head hne
  cases hcomma

/-- `{ }` -/
def emptyToks : TokenList := [tok .brOpen, tok .brClose]

/-- `{ a, b; }` -/
def slipToks : TokenList := [tok .brOpen, identTok "a", tok .comma, identTok "b", tok .semicolon, tok .brClose]

theorem onAfterExpr_slip :
    callbackRuns plainSettings (installed 6) (onAfterExpr 6 (identExpr "f")) (start slipToks) =
      some (.ok (some (.eCall (identExpr "f") [functionExpr ["a"] [identExpr "b"]])),
        ⟨[], tok .brClose, false, [], (), []⟩) := by
  have hnext : parse plainSettings (installed 6) (.exprNext (.eConst (.ident "b")) nullPos.pmax)
      ⟨[tok .semicolon, tok .brClose], identTok "b", false, [], (), []⟩ =
        some (.ok (identExpr "b"), ⟨[tok .semicolon, tok .brClose], identTok "b", false, [], (), []⟩) := by
    refine parse_exprNext_passed (fun h hh => ?_) (runs_exprNext'_end (by rfl) _ _)
    obtain rfl := List.mem_singleton.1 hh
    exact onAfterExpr_other Token.noConfusion
  have hscan : callbackRuns plainSettings (installed 6) (scanArgs 6 [] false) ((start slipToks).junk plainSettings) =
      some (.ok (["a"], some ("b", nullPos)), ⟨[tok .semicolon, tok .brClose], identTok "b", false, [], (), []⟩) := by
    simp [scanArgs, State.peek, State.junk, start, slipToks, tok, identTok]
  have hsemicolon : runs plainSettings (installed 6) (semicolon plainSettings)
      ⟨[tok .semicolon, tok .brClose], identTok "b", false, [], (), []⟩ =
        some (.ok nullPos, ⟨[tok .brClose], tok .semicolon, false, [], (), []⟩) := by
    simp [semicolon, State.peek, State.junk, tok]
  rw [onAfterExpr_scanned rfl rfl rfl, hscan, Prog.andThen_ok]
  exact (content_iff (identExpr "f") ["a"] (some ("b", nullPos)) _ _ _).2
    ⟨_, rfl, .mk hnext hsemicolon (.empty rfl)⟩

theorem grammar_exceptions :
    ¬ AcceptsExactly plainSettings (installed 2) 2 (identExpr "$f") (start emptyToks) ∧
    ¬ AcceptsExactly plainSettings (installed 6) 6 (identExpr "f") (start slipToks) := by
  constructor
  · intro h
    have haccepts : Accepts plainSettings (installed 2) (identExpr "$f") ((start emptyToks).junk plainSettings) _ _ :=
      .body (fun n s1 hn => by cases hn.1) (.other (fun n s1 hn => by cases hn.1) (.empty rfl))
    have hrun := (h _ _).2 ⟨_, rfl, haccepts⟩
    rw [onAfterExpr_guarded (.inr (by decide))] at hrun
    cases hrun
  · intro h
    obtain ⟨e', he, haccepts⟩ := (h _ _).1 onAfterExpr_slip
    exact not_accepts_of_slip ⟨["a"], _, "b", _, List.cons_ne_nil _ _, .cons ⟨rfl, rfl⟩ rfl .nil, ⟨rfl, rfl⟩,
      Token.noConfusion, Token.noConfusion⟩ haccepts

end TrailingLambda

end EvilHaxe.Mods
