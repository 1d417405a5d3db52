/-
The mods `shorthand_array`, `shorthand_null` and `pow`: one callback each, which peeks and takes over at its own tokens.
-/
import EvilHaxe.Evil.TokenStream
import EvilHaxe.Mods.Pipe
import EvilHaxe.Mods.TrailingLambda

namespace EvilHaxe.Mods

open EvilHaxe.Syntax EvilHaxe.Evil EvilHaxe.Grammar Lib

variable {σ : Type}

/-- `macro : name<$t>`. -/
def wrapType (name : String) (t : TypeHint) : TypeHint := .ctPath (mkTypePath [] name [.tpType t] none)

namespace ShorthandArray

/-- If `[]` follows a type, wrap it with `Array`. -/
def onAfterType (type : TypeHint) : Callback σ (Option TypeHint) := do
  match (← TokenStream.peek).1 with
  | .bkOpen => do
    TokenStream.consume
    match (← TokenStream.peek).1 with
    | .bkClose => do
      TokenStream.consume
      let t ← TokenStream.parsePostType (wrapType "Array" type)
      pure (some t)
    | _ => pure none
  | _ => pure none

/-- What `init` adds. -/
def mod : ParserMod (CallbackType σ) := { onAfterType := some onAfterType }

end ShorthandArray

namespace ShorthandNull

def onAfterType (type : TypeHint) : Callback σ (Option TypeHint) := do
  match (← TokenStream.peek).1 with
  | .question => do
    TokenStream.consume
    let t ← TokenStream.parsePostType (wrapType "Null" type)
    pure (some t)
  | _ => pure none

/-- What `init` adds. -/
def mod : ParserMod (CallbackType σ) := { onAfterType := some onAfterType }

end ShorthandNull

namespace Pow

/-- `macro Math.pow($e1, $e2)`. -/
def powCall (e1 e2 : Expr) : Expr := .eCall (.eField (.eConst (.ident "Math")) "pow" .efNormal) [e1, e2]

/-- Parses the `**` operator and generates a `Math.pow(e1, e2)` statement. -/
def onAfterExpr (expr : Expr) : Callback σ (Option Expr) := do
  match (← TokenStream.peek).1 with
  | .binop .opMult => do
    TokenStream.consume
    match (← TokenStream.peek).1 with
    | .binop .opMult => do
      TokenStream.consume
      let e2 ← TokenStream.nextExpr
      pure (some (powCall expr e2))
    | _ => do
      let e2 ← TokenStream.nextExpr
      pure (some (.eBinop .opMult expr e2))
  | _ => pure none

/-- What `init` adds. -/
def mod : ParserMod (CallbackType σ) := { onExprNext := some fun expr _ => onAfterExpr expr }

end Pow

end EvilHaxe.Mods

/-! What the callbacks of the mods leave of the stream when they have no result, and that a parse which never comes to the syntax
of a type mod is the one without it.

`shorthand_array` is the exception: it gives a `[` away before it knows that a `]` follows. -/

namespace EvilHaxe.Mods

open EvilHaxe.Syntax EvilHaxe.Evil EvilHaxe.Grammar Lib

variable {σ α : Type} {cx : Settings} {hooks : Hooks σ}

/-- Without a result the callback leaves the stream as it was. -/
def Transparent (cx : Settings) (hooks : Hooks σ) (c : Callback σ (Option α)) (s : State σ) : Prop :=
  ∀ s', callbackRuns cx hooks c s = some (.ok none, s') → s' = s

/-- The next callback, or the parser behind the hook, goes on where a transparent callback began. -/
theorem Transparent.goOn {c : Callback σ (Option α)} {s s' : State σ} (h : Transparent cx hooks c s)
    (hr : callbackRuns cx hooks c s = some (.ok none, s')) (recode : α → Except Exc α)
    (hs : List (Callback σ (Option α))) (p : P α) :
    fullRuns cx hooks (hooked cx recode (c :: hs) p) s = fullRuns cx hooks (hooked cx recode hs p) s := by
  obtain rfl := h s' hr
  rw [fullRuns_hooked_cons, hr]
  rfl

/-! ## Callbacks that have a result -/

/-- The callback always has a result, unless it fails or raises. -/
def Answers (cx : Settings) (hooks : Hooks σ) (c : Callback σ (Option α)) : Prop :=
  ∀ s s', callbackRuns cx hooks c s ≠ some (.ok none, s')

theorem answers_some (a : α) : Answers cx hooks (pure (some a)) := by
  intro s s' h
  cases h

theorem answers_raise (e : Exc) : Answers cx hooks (Prog.raise e : Callback σ (Option α)) := by
  intro s s' h
  cases h

theorem answers_bind {β : Type} {p : Callback σ β} {k : β → Callback σ (Option α)} (h : ∀ b, Answers cx hooks (k b)) :
    Answers cx hooks (p >>= k) := by
  intro s s' hr
  rw [callbackRuns_bind] at hr
  rcases Prog.andThen_eq_some hr with ⟨b, s1, -, hk⟩ | ⟨s1, -, hk⟩ | ⟨e, s1, -, hk⟩
  · exact h b s1 s' hk
  · cases hk
  · cases hk

theorem Answers.transparent {c : Callback σ (Option α)} (h : Answers cx hooks c) (s : State σ) :
    Transparent cx hooks c s :=
  fun s' hr => absurd hr (h s s')

theorem transparent_pure (s : State σ) : Transparent cx hooks (pure none : Callback σ (Option α)) s := by
  intro s' h
  cases h
  rfl

/-- A callback that looks at the next token first. -/
theorem transparent_peek {k : Token × Pos → Callback σ (Option α)} {s : State σ}
    (h : Transparent cx hooks (k (s.peek cx)) s) : Transparent cx hooks (TokenStream.peek >>= k) s := by
  intro s' hr
  rw [callbackRuns_bind, callbackRuns_peek, Prog.andThen_ok] at hr
  exact h s' hr

/-! ## The callbacks -/

theorem ShorthandNull.transparent (t : TypeHint) (s : State σ) :
    Transparent cx hooks (ShorthandNull.onAfterType t) s := by
  refine transparent_peek ?_
  split
  · exact (answers_bind fun _ => answers_bind answers_some).transparent s
  · exact transparent_pure s

theorem Pipe.transparent (expr : Expr) (s : State σ) : Transparent cx hooks (Pipe.onAfterExpr expr) s := by
  refine transparent_peek ?_
  split
  · refine Answers.transparent (answers_bind fun _ => answers_bind fun t => ?_) s
    split
    · refine answers_bind fun _ => answers_bind fun e2 => ?_
      split
      · exact answers_some _
      · exact answers_raise _
    · exact answers_bind fun e2 => answers_some _
  · exact transparent_pure s

theorem Pow.transparent (expr : Expr) (s : State σ) : Transparent cx hooks (Pow.onAfterExpr expr) s := by
  refine transparent_peek ?_
  split
  · refine Answers.transparent (answers_bind fun _ => answers_bind fun t => ?_) s
    split
    · exact answers_bind fun _ => answers_bind fun e2 => answers_some _
    · exact answers_bind fun e2 => answers_some _
  · exact transparent_pure s

theorem TrailingLambda.transparent (rounds : Nat) (expr : Expr) (s : State σ) :
    Transparent cx hooks (TrailingLambda.onAfterExpr rounds expr) s := by
  intro s' hr
  by_cases hopen : (s.peek cx).1 = .brOpen
  · by_cases hguard : s.parsingSwitchExpr = true ∨ isDollarIdent expr = true
    · rw [TrailingLambda.onAfterExpr_guarded hguard] at hr
      cases hr
      rfl
    · obtain ⟨hswitch, hexpr⟩ := not_or.1 hguard
      rw [TrailingLambda.onAfterExpr_scanned (Bool.eq_false_iff.2 hswitch)
        (Bool.eq_false_iff.2 hexpr) hopen] at hr
      rcases Prog.andThen_eq_some hr with ⟨b, s1, -, hk⟩ | ⟨s1, -, hk⟩ | ⟨e, s1, -, hk⟩
      · exact absurd hk (answers_bind (fun first => answers_bind fun content => answers_some _) s1 s')
      · cases hk
      · cases hk
  · rw [TrailingLambda.onAfterExpr_other hopen] at hr
    cases hr
    rfl

/-- A `[`, and whether a `]` follows. -/
def ShorthandArray.Opens (cx : Settings) (s : State σ) : Prop := (s.peek cx).1 = .bkOpen
def ShorthandArray.Closes (cx : Settings) (s : State σ) : Prop := ((s.junk cx).peek cx).1 = .bkClose

/-- `shorthand_array` loses a `[` that no `]` follows, and nothing else. -/
theorem ShorthandArray.transparent_iff (t : TypeHint) (s : State σ) :
    Transparent cx hooks (ShorthandArray.onAfterType t) s ↔ (Opens cx s → Closes cx s) := by
  constructor
  · intro h hopen
    by_contra hclose
    have hrun : callbackRuns cx hooks (ShorthandArray.onAfterType t) s = some (.ok none, s.junk cx) := by
      unfold Opens at hopen
      unfold ShorthandArray.onAfterType
      rw [callbackRuns_bind, callbackRuns_peek, Prog.andThen_ok, hopen, callbackRuns_bind, callbackRuns_consume,
        Prog.andThen_ok, callbackRuns_bind, callbackRuns_peek, Prog.andThen_ok]
      split
      · exact absurd ‹_› hclose
      · rfl
    -- a state with fewer tokens is another state
    have hlt := junk_length hopen Token.noConfusion
    rw [h _ hrun] at hlt
    exact absurd hlt (Nat.lt_irrefl _)
  · intro h
    refine transparent_peek ?_
    split
    · next hopen =>
      intro s' hr
      rw [callbackRuns_bind, callbackRuns_consume, Prog.andThen_ok, callbackRuns_bind, callbackRuns_peek,
        Prog.andThen_ok, h hopen] at hr
      exact absurd hr (answers_bind (fun _ => answers_bind answers_some) _ s')
    · exact transparent_pure s

/-! ## A type mod in a whole parse -/

/-- The run of a parser from a state comes to the hook after a type in the state `s'`. -/
def AfterType (cx : Settings) (hooks : Hooks σ) (nt : NT) (s : State σ) (t : TypeHint) (s' : State σ) : Prop :=
  Calls (grammar cx hooks) (.inl (.nt (.parseComplexTypeNext t))) s' (.inl (.nt nt)) s

section

variable {mod : ParserMod (CallbackType σ)} {k : TypeHint → Token × Pos → Callback σ (Option TypeHint)}

/-- A type mod that looks at the next token and has nothing to say to it. -/
theorem agree_afterType (hmod : mod = { onAfterType := some fun t => TokenStream.peek >>= k t }) {t : TypeHint}
    {s : State σ} (hk : k t (s.peek cx) = pure none) :
    Agree (grammar cx hooks) (grammar cx (applyMod mod hooks)) (.inl (.nt (.parseComplexTypeNext t))) s := by
  subst hmod
  have hrun : ∀ H : Handler (fullSig σ) Exc (State σ), (callback cx (TokenStream.peek >>= k t)).run H s =
      Prog.andThen (H (.inl .peek) s) (fun p s => (callback cx (k t p)).run H s) fun s => some (.fail, s) := by
    intro H
    rw [callback, Prog.run_interp, Prog.run_bind, TokenStream.peek, Prog.run_op, tokenStream, plain, Prog.run_inl, Grammar.peek,
      Prog.run_op]
    simp only [callback, Prog.run_interp]
  constructor
  · intro r hr
    refine (run_hooked_cons s _ _ _ _ _).trans ?_
    rw [hrun, exec_prim rfl, Prog.andThen_ok, hk]
    exact hr
  · intro H hbelow r hr
    replace hr := (run_hooked_cons s _ _ _ _ _).symm.trans hr
    rw [hrun] at hr
    cases hp : H (.inl .peek) s with
    | none =>
      rw [hp] at hr
      cases hr
    | some q =>
      have hq := hbelow _ _ _ hp
      rw [exec_prim rfl] at hq
      cases hq
      rw [hp, Prog.andThen_ok, hk] at hr
      exact hr

/-- Every other parser is the same with it. -/
theorem grammar_applyMod (hmod : mod = { onAfterType := some fun t => TokenStream.peek >>= k t }) {o : (fullSig σ).Op}
    (ho : ∀ t, o ≠ .inl (.nt (.parseComplexTypeNext t))) :
    grammar cx hooks o = grammar cx (applyMod mod hooks) o := by
  subst hmod
  rcases o with o | o
  · cases o with
    | nt t =>
      cases t with
      | hook h =>
        cases h with
        | parseComplexTypeNext t => exact absurd rfl (ho t)
        | _ => rfl
      | _ => rfl
    | _ => rfl
  · cases o <;> rfl

/-- A parse in which the mod has nothing to say is the one without it. -/
theorem parse_applyMod (hmod : mod = { onAfterType := some fun t => TokenStream.peek >>= k t }) {nt : NT} {s : State σ}
    (hk : ∀ t s', AfterType cx hooks nt s t s' → k t (s'.peek cx) = pure none) :
    parse cx (applyMod mod hooks) nt s = parse cx hooks nt s := by
  refine exec_congr fun o s' hcall => ?_
  by_cases ho : ∃ t, o = .inl (.nt (.parseComplexTypeNext t))
  · obtain ⟨t, rfl⟩ := ho
    exact agree_afterType hmod (hk t s' hcall)
  · exact .of_eq (grammar_applyMod hmod fun t ht => ho ⟨t, ht⟩)

end

theorem ShorthandNull.parse_eq {nt : NT} {s : State σ}
    (h : ∀ t s', AfterType cx hooks nt s t s' → (s'.peek cx).1 ≠ .question) :
    parse cx (applyMod ShorthandNull.mod hooks) nt s = parse cx hooks nt s := by
  refine parse_applyMod rfl fun t s' hcall => ?_
  split
  · next hq => exact absurd hq (h t s' hcall)
  · rfl

theorem ShorthandArray.parse_eq {nt : NT} {s : State σ}
    (h : ∀ t s', AfterType cx hooks nt s t s' → (s'.peek cx).1 ≠ .bkOpen) :
    parse cx (applyMod ShorthandArray.mod hooks) nt s = parse cx hooks nt s := by
  refine parse_applyMod rfl fun t s' hcall => ?_
  split
  · next hopen => exact absurd hopen (h t s' hcall)
  · rfl

/-- The callbacks of the mods: what is left of the stream, what then goes on there, and a whole parse without their syntax. -/
theorem hook_transparency (cx : Settings) (hooks : Hooks σ) :
    ((∀ t s, Transparent cx hooks (ShorthandNull.onAfterType t) s) ∧
      (∀ e s, Transparent cx hooks (Pipe.onAfterExpr e) s) ∧
      (∀ e s, Transparent cx hooks (Pow.onAfterExpr e) s) ∧
      (∀ rounds e s, Transparent cx hooks (TrailingLambda.onAfterExpr rounds e) s) ∧
      ∀ t s, Transparent cx hooks (ShorthandArray.onAfterType t) s ↔
        (ShorthandArray.Opens cx s → ShorthandArray.Closes cx s)) ∧
    (∀ {α : Type} (c : Callback σ (Option α)) (s s' : State σ), Transparent cx hooks c s →
      callbackRuns cx hooks c s = some (.ok none, s') → ∀ recode hs p,
        fullRuns cx hooks (hooked cx recode (c :: hs) p) s = fullRuns cx hooks (hooked cx recode hs p) s) ∧
    (∀ nt s, (∀ t s', AfterType cx hooks nt s t s' → (s'.peek cx).1 ≠ .question) →
      parse cx (applyMod ShorthandNull.mod hooks) nt s = parse cx hooks nt s) ∧
    ∀ nt s, (∀ t s', AfterType cx hooks nt s t s' → ¬ (ShorthandArray.Opens cx s' ∧ ShorthandArray.Closes cx s')) →
      (∀ t s', AfterType cx hooks nt s t s' → ShorthandArray.Opens cx s' → ShorthandArray.Closes cx s') →
        parse cx (applyMod ShorthandArray.mod hooks) nt s = parse cx hooks nt s := by
  refine ⟨⟨ShorthandNull.transparent, Pipe.transparent, Pow.transparent, TrailingLambda.transparent,
    ShorthandArray.transparent_iff⟩, ?_, ?_, ?_⟩
  · exact fun c s s' h hr recode hs p => h.goOn hr recode hs p
  · exact fun nt s h => ShorthandNull.parse_eq h
  · exact fun nt s hno hclosed => ShorthandArray.parse_eq fun t s' hcall hopen =>
      hno t s' hcall ⟨hopen, hclosed t s' hcall hopen⟩

/-! ## Two types -/

def intType : TypeHint := .ctPath (mkTypePath [] "Int" [] none)

/-- `Int` before a `;` -/
def plainType : State Unit := TrailingLambda.start [TrailingLambda.tok .semicolon]

/-- `Int` before `[ 1` -/
def bracketType : State Unit :=
  TrailingLambda.start [TrailingLambda.tok .bkOpen, TrailingLambda.tok (.const (.int "1" none))]

/-- The parse of what follows the type comes to the hook at its start only. -/
theorem afterType_plainType {t : TypeHint} {s' : State Unit}
    (h : AfterType plainSettings noMods (.parseComplexTypeNext intType) plainType t s') : s' = plainType := by
  have hhook : grammar plainSettings (noMods : Hooks Unit) (.inl (.nt (.parseComplexTypeNext intType))) =
    .prog (plain (nt (.parseComplexTypeNext' intType))) := rfl
  have hnext : grammar plainSettings (noMods : Hooks Unit) (.inl (.nt (.parseComplexTypeNext' intType))) =
    .prog (plain (parseComplexTypeNext' plainSettings intType)) := rfl
  rcases h.asked hhook with ⟨-, rfl⟩ | ⟨o1, s1, ha, hc⟩
  · rfl
  · obtain ⟨o, rfl, hask⟩ := (Prog.asks_inl_iff _ _).1 ha
    obtain ⟨rfl, rfl⟩ := (Prog.asks_op_iff _ _).1 hask
    rcases hc.asked hnext with ⟨h, -⟩ | ⟨o2, s2, ha, hc⟩
    · cases h
    · obtain ⟨o, rfl, hask⟩ := (Prog.asks_inl_iff _ _).1 ha
      obtain ⟨rfl, rfl⟩ : o = .peek ∧ s2 = plainType := by
        rcases (asks_accept_other Token.noConfusion _ _).1 hask with h | hask
        · exact h
        · rcases (asks_accept_other Token.noConfusion _ _).1 hask with h | hask
          · exact h
          · exact absurd hask (Prog.not_asks_pure _ _)
      exact absurd (hc.prim rfl).1 nofun

theorem plain_transparency :
    parse plainSettings (applyMod ShorthandNull.mod noMods) (.parseComplexTypeNext intType) plainType =
      parse plainSettings noMods (.parseComplexTypeNext intType) plainType ∧
    parse plainSettings (applyMod ShorthandArray.mod noMods) (.parseComplexTypeNext intType) plainType =
      parse plainSettings noMods (.parseComplexTypeNext intType) plainType := by
  obtain ⟨-, -, hnull, harray⟩ := hook_transparency plainSettings (noMods : Hooks Unit)
  constructor
  · refine hnull _ _ fun t s' h => ?_
    rw [afterType_plainType h]
    exact Token.noConfusion
  · refine harray _ _ (fun t s' h => ?_) fun t s' h => ?_
    · rw [afterType_plainType h]
      exact fun hopen => Token.noConfusion hopen.1
    · rw [afterType_plainType h]
      exact fun hopen => Token.noConfusion hopen

theorem lone_bracket_lost : ¬ Transparent plainSettings noMods (ShorthandArray.onAfterType intType) bracketType := by
  rw [ShorthandArray.transparent_iff]
  exact fun h => Token.noConfusion (h rfl)

end EvilHaxe.Mods
