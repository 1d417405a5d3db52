/-
From the tokens of a chain to what the mod builds: `expr` reads an operand, the hook takes over at `|>`,
  and what it builds
goes through the codec, which keeps it where it keeps the operands.
-/
import EvilHaxe.Mods.PipeChains
import EvilHaxe.Evil.Kept
import EvilHaxe.Grammar.Chains

namespace EvilHaxe.Mods

open EvilHaxe.Syntax EvilHaxe.Evil EvilHaxe.Grammar Lib

namespace Pipe

variable {σ : Type} {cx : Settings}

/-! ## The codec -/

/-- A tree that the codec hands over as it is. -/
abbrev Kept (e : Expr) : Prop := checkExpr keptChecks e = true

theorem kept_call (f : Expr) (el : List Expr) : Kept (.eCall f el) ↔ Kept f ∧ ∀ e ∈ el, Kept e := by
  have hexprs : checkExprs keptChecks el = true ↔ ∀ e ∈ el, Kept e := by
    induction el with
    | nil => simp
    | cons e el ih => simp [ih]
  simp [Kept, hexprs]

theorem kept_wrap (e : Expr) : Kept (wrapOperatorMeta e) ↔ Kept e := by
  simp [Kept, wrapOperatorMeta]

theorem kept_meta {m : MetadataEntry} {e : Expr} (h : Kept (.eMeta m e)) : Kept e := by
  simp only [Kept, checkExpr, Bool.and_eq_true] at h
  exact h.2

theorem makePipeExpr_kept {x e r : Expr} (h : makePipeExpr x e = .ok r) (hx : Kept x) (he : Kept e) : Kept r := by
  induction e using makePipeExpr.induct generalizing r with
  | case1 params c el hel ih =>
    obtain ⟨el', last, y, rfl, hy, rfl⟩ := makePipeExpr_into hel h
    obtain ⟨hc, hargs⟩ := (kept_call _ _).1 (kept_meta he)
    have hlast := ih (r := y)
    rw [List.getLast_concat] at hlast
    refine (kept_call _ _).2 ⟨hc, fun e' he' => ?_⟩
    rcases List.mem_append.1 he' with he' | he'
    · exact hargs e' (List.mem_append_left _ (List.mem_of_mem_take he'))
    · obtain rfl := List.mem_singleton.1 he'
      exact hlast hy (hargs last (List.mem_append_right _ (List.mem_singleton_self _)))
  | case2 params c el hel =>
    rw [makePipeExpr, if_pos rfl, dif_neg hel] at h
    cases h
    exact (kept_call _ _).2 ⟨((kept_call _ _).1 (kept_meta he)).1, by simpa using hx⟩
  | case3 params e hcall =>
    have := isCall_of_marked h
    cases e <;> first | exact this.elim | exact (hcall _ _ rfl).elim
  | case4 n params e hn ih =>
    rw [makePipeExpr_skip hn] at h
    exact ih h (kept_meta he)
  | case5 c el hel =>
    rw [makePipeExpr_call x c hel] at h
    cases h
    obtain ⟨hc, hargs⟩ := (kept_call _ _).1 he
    rw [kept_wrap, kept_call]
    refine ⟨hc, fun e' he' => ?_⟩
    rcases List.mem_append.1 he' with he' | he'
    · exact hargs e' he'
    · rwa [List.mem_singleton.1 he']
  | case6 c el hel =>
    rw [makePipeExpr, if_neg hel] at h
    cases h
    rw [kept_wrap, kept_call]
    exact ⟨he, by simpa using hx⟩
  | case7 e hm hc =>
    rw [makePipeExpr.eq_def] at h
    cases e <;> first
      | exact (hc _ _ rfl).elim
      | (rename_i m e; cases m; exact (hm _ _ _ rfl).elim)
      | (cases h; rw [kept_wrap, kept_call]; exact ⟨he, by simpa using hx⟩)

/-! ## The hook -/

theorem parse_exprNext_hook (e : Expr) (pmax : Int) (s : State σ) :
    parse cx hooks (.exprNext e pmax) s =
      Prog.andThen (callbackRuns cx hooks (onAfterExpr e) s)
        (decoding recodeExpr (runs cx hooks (tryExprNext' cx e pmax))) fun s => some (.fail, s) := by
  rw [parse_hook]
  exact fullRuns_hooked_single s recodeExpr (onAfterExpr e) (tryExprNext' cx e pmax)

/-- Before any other token the mod is not there. -/
theorem parse_exprNext_other {s s' : State σ} {e r : Expr} {pmax : Int} (h : (s.peek cx).1 ≠ .binop .opOr)
    (hr : runs cx hooks (exprNext' cx e pmax) s = some (.ok r, s')) :
    parse cx hooks (.exprNext e pmax) s = some (.ok r, s') := by
  have hnone : callbackRuns cx hooks (onAfterExpr e) s = some (.ok none, s) := by
    rw [onAfterExpr, callbackRuns_bind, callbackRuns_peek, Prog.andThen_ok]
    split
    · exact absurd ‹_› h
    · rfl
  refine parse_exprNext_passed (fun c hc => ?_) hr
  obtain rfl := List.mem_singleton.1 hc
  exact hnone

/-- At `|>` the mod reads what follows and puts `e` into it. -/
theorem parse_exprNext_pipe {s : State σ} {e e2 r : Expr} {pmax : Int} {p1 p2 : Pos} {ts rest : TokenList}
    (hs : s.toks = (.binop .opOr, p1) :: (.binop .opGt, p2) :: ts)
    (hnext : ∀ s1 : State σ, s1.toks = ts → ∃ s', parse cx hooks .expr s1 = some (.ok e2, s') ∧ s'.toks = rest)
    (hmake : makePipeExpr e e2 = .ok r) (hr : Kept r) :
    ∃ s', parse cx hooks (.exprNext e pmax) s = some (.ok r, s') ∧ s'.toks = rest := by
  have hp1 : s.peek cx = (.binop .opOr, p1) := peek_cons hs
  have hjunk : (s.junk cx).toks = (.binop .opGt, p2) :: ts := by rw [junk_toks, hs]; rfl
  have hp2 : (s.junk cx).peek cx = (.binop .opGt, p2) := peek_cons hjunk
  obtain ⟨s', hparse, hs'⟩ := hnext ((s.junk cx).junk cx) (by rw [junk_toks, hjunk]; rfl)
  refine ⟨s', ?_, hs'⟩
  have hsome : callbackRuns cx hooks (onAfterExpr e) s = some (.ok (some r), s') := by
    simp [onAfterExpr, hp1, hp2, parse_secureExpr hparse, hmake]
  rw [parse_exprNext_hook, hsome, Prog.andThen_ok, decoding, (recode_expr r).2 hr]

/-! ## Operands -/

/-- `expr` reads `e` from `ts` and goes on with `expr_next`. -/
def Reads (cx : Settings) (ts : TokenList) (e : Expr) : Prop :=
  ∀ (s : State σ) (rest : TokenList), s.toks = ts ++ rest → ∃ s1 pmax, s1.toks = rest ∧
    ∀ r s', parse cx hooks (.exprNext e pmax) s1 = some (.ok r, s') → parse cx hooks .expr s = some (.ok r, s')

theorem reads_operand {ts : TokenList} {e : Expr} (h : Operand cx (hooks (σ := σ)) ts e) : Reads (σ := σ) cx ts e := by
  intro s rest hs
  obtain ⟨s1, pmax, hs1, heq⟩ := h.parse_expr rfl hs
  exact ⟨s1, pmax, hs1, fun r s' hr => heq.trans hr⟩

/-! ## Chains of tokens -/

/-- The tokens of a chain before `rest`: all operands are kept by the codec, and the last one ends before `rest`. -/
inductive Tokens (σ : Type) (cx : Settings) (rest : TokenList) : TokenList → Expr → List Expr → Prop where
  | last {ts : TokenList} {e : Expr} (h : Parses cx (hooks (σ := σ)) .expr ts rest e) (hkept : Kept e) :
    Tokens σ cx rest ts e []
  | pipe {ts ts' : TokenList} {x s : Expr} {stages : List Expr} (p1 p2 : Pos) (h : Reads (σ := σ) cx ts x)
      (hkept : Kept x) (hs : Tokens σ cx rest ts' s stages) :
    Tokens σ cx rest (ts ++ (.binop .opOr, p1) :: (.binop .opGt, p2) :: ts') x (s :: stages)

theorem Tokens.kept {rest ts : TokenList} {x : Expr} {stages : List Expr} (h : Tokens σ cx rest ts x stages) {r : Expr}
    (hr : chain x stages = .ok r) : Kept r := by
  induction h generalizing r with
  | last h hkept =>
    cases hr
    exact hkept
  | pipe p1 p2 h hkept hs ih =>
    obtain ⟨e, he, hmake⟩ := chain_cons hr
    exact makePipeExpr_kept hmake hkept (ih he)

/-- The parser returns what the mod builds. -/
theorem Tokens.parses {rest ts : TokenList} {x : Expr} {stages : List Expr} (h : Tokens σ cx rest ts x stages)
    {r : Expr}
    (hr : chain x stages = .ok r) : Parses cx (hooks (σ := σ)) .expr ts rest r := by
  induction h generalizing r with
  | last h hkept =>
    cases hr
    exact h
  | @pipe ts ts' x s stages p1 p2 h hkept hs ih =>
    intro st hst
    obtain ⟨e, he, hmake⟩ := chain_cons hr
    obtain ⟨s1, pmax, hs1, hread⟩ := h st ((.binop .opOr, p1) :: (.binop .opGt,
      p2) :: (ts' ++ rest)) (by simpa using hst)
    have hkept' : Kept r := makePipeExpr_kept hmake hkept (hs.kept he)
    obtain ⟨s', hparse, hs'⟩ := @parse_exprNext_pipe σ cx s1 x e r pmax p1 p2 (ts' ++ rest) rest hs1 (ih he) hmake
      hkept'
    exact ⟨s', hread r s' hparse, hs'⟩

/-! ## The claim of the mod -/

/-- What the mod builds for a chain, and the parser returns, is the left-nested application, the markers apart,
  exactly for
one stage, and for two of which the second is no call,
  if no stage is a call without arguments or has metadata before it. -/
theorem pipe_correct_iff (cx : Settings) (x : Expr) {stages : List Expr} (h : stages ≠ []) :
    ((chain x stages).map unmarked = .ok (unmarked (nested x stages)) ↔ Short stages) ∧
      ∀ ts rest, Tokens σ cx rest ts x stages → ∀ r,
        chain x stages = .ok r → Parses cx (hooks (σ := σ)) .expr ts rest r := by
  constructor
  · exact chain_eq_nested_iff x h
  · intro ts rest htokens r hr
    exact htokens.parses hr

theorem parses_ident (n : String) : Parses plainSettings (hooks (σ := Unit)) .expr [identTok n] [] (identExpr n) := by
  intro s hs
  obtain ⟨s1, pmax, hs1, hread⟩ := reads_operand (Operand.atom rfl) s [] hs
  have hend : Ends plainSettings s1.toks := by rw [hs1]; rfl
  have hpeek : (s1.peek plainSettings).1 ≠ .binop .opOr := by rw [State.peek, hs1]; exact Token.noConfusion
  exact ⟨s1, hread _ _ (parse_exprNext_other hpeek (runs_exprNext'_end hend _ _)), hs1⟩

/-- `|>`. -/
def pipeToks : TokenList := [(.binop .opOr, nullPos), (.binop .opGt, nullPos)]

theorem tokens_idents (n : String) (names : List String) :
    Tokens Unit plainSettings [] (identTok n :: names.flatMap fun n => pipeToks ++ [identTok n]) (identExpr n)
      (names.map identExpr) := by
  induction names generalizing n with
  | nil => exact .last (parses_ident n) rfl
  | cons m names ih =>
    have hread : Reads (σ := Unit) plainSettings [identTok n] (identExpr n) := reads_operand (Operand.atom rfl)
    exact .pipe nullPos nullPos hread rfl (ih m)

theorem pipe_correct_two :
    (chain (identExpr "x") [identExpr "f", identExpr "g"]).map unmarked =
      .ok (unmarked (nested (identExpr "x") [identExpr "f", identExpr "g"])) :=
  (@pipe_correct_iff Unit plainSettings (identExpr "x") [identExpr "f", identExpr "g"] nofun).1.2 ⟨trivial, trivial, id⟩

theorem chain_three : chain (identExpr "x") [identExpr "f", identExpr "g", identExpr "h"] =
    .ok (wrapOperatorMeta
      (.eCall (identExpr "h") [wrapOperatorMeta (.eCall (identExpr "g") [identExpr "f"]), identExpr "x"])) := by
  have hplain : makePipeExpr (identExpr "f") (identExpr "g") =
      .ok (wrapOperatorMeta (.eCall (identExpr "g") [identExpr "f"])) := makePipeExpr_plain trivial
  have htail := @chain_two (identExpr "f") (identExpr "g") (identExpr "h") trivial
  rw [hplain] at htail
  rw [chain, htail]
  exact makePipeExpr_call _ _ (List.cons_ne_nil _ _)

/-- `x |> f |> g |> h` becomes `h(g(f), x)`. -/
theorem pipe_three_stages :
    ∃ r, Parses plainSettings (hooks (σ := Unit)) .expr
        (identTok "x" :: ["f", "g", "h"].flatMap fun n => pipeToks ++ [identTok n]) [] r ∧
      unmarked r = .eCall (identExpr "h") [.eCall (identExpr "g") [identExpr "f"], identExpr "x"] ∧
      unmarked r ≠ unmarked (nested (identExpr "x") [identExpr "f", identExpr "g", identExpr "h"]) := by
  refine ⟨_, (tokens_idents "x" ["f", "g", "h"]).parses chain_three, ?_, ?_⟩
  · simp [unmarked_wrap, unmarked_call, identExpr, dropExpr]
  · intro h
    exact not_chain_three ((congrArg (Except.map unmarked) chain_three).trans (congrArg Except.ok h))

end Pipe

end EvilHaxe.Mods
