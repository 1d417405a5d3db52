/-
`evilParser.ml` and `evilGrammar.ml`: the global hook lists, and how the start of a file clears
them and installs the mods of its `#evil` header.

What a callback is does not matter here: the lists are over any family of callback types. The
parser of the header's arguments is a parameter, as it is in the source (it runs while the hooks of
the previous file are still installed, so it is given them), and so are the printer `s_expr` and
the table of registered mods.
-/
import EvilHaxe.Syntax.Parser
import Mathlib.Data.List.Induction

namespace EvilHaxe.Evil

open EvilHaxe.Syntax

/-! ## Hook lists and mods -/

/-- `hook_type`. -/
inductive HookType where
  | onExpr | onAfterExpr | onFunctionExpr | onBlockStart | onAfterBlockExpr | onType | onAfterType
  | onTypeDeclaration | onClassField | tokenTransmuter
  deriving DecidableEq, Repr

/-- `global_parser_hooks`. -/
structure GlobalParserHooks (τ : HookType → Type) where
  hasMods : Bool
  defaults : List String
  conspiracies : List String
  parsingSwitchExpr : Bool
  onExpr : List (τ .onExpr)
  onExprNext : List (τ .onAfterExpr)
  onFunctionExpr : List (τ .onFunctionExpr)
  onBlock : List (τ .onBlockStart)
  onBlockNext : List (τ .onAfterBlockExpr)
  onType : List (τ .onType)
  onAfterType : List (τ .onAfterType)
  onTypeDecl : List (τ .onTypeDeclaration)
  onClassField : List (τ .onClassField)
  tokenTransmuter : List (τ .tokenTransmuter)

/-- `parser_mod`. -/
structure ParserMod (τ : HookType → Type) where
  onExpr : Option (τ .onExpr) := none
  onExprNext : Option (τ .onAfterExpr) := none
  onFunctionExpr : Option (τ .onFunctionExpr) := none
  onBlock : Option (τ .onBlockStart) := none
  onBlockNext : Option (τ .onAfterBlockExpr) := none
  onType : Option (τ .onType) := none
  onAfterType : Option (τ .onAfterType) := none
  onTypeDecl : Option (τ .onTypeDeclaration) := none
  onClassField : Option (τ .onClassField) := none
  tokenTransmuter : Option (τ .tokenTransmuter) := none

section

variable {τ : HookType → Type}

/-- The initial value of the global `hooks`. -/
def initialHooks : GlobalParserHooks τ where
  hasMods := false
  defaults := ["pipe"]
  conspiracies := []
  parsingSwitchExpr := false
  onExpr := []
  onExprNext := []
  onFunctionExpr := []
  onBlock := []
  onBlockNext := []
  onType := []
  onAfterType := []
  onTypeDecl := []
  onClassField := []
  tokenTransmuter := []

/-- The callbacks installed for a hook. -/
def GlobalParserHooks.callbacks (h : GlobalParserHooks τ) : (k : HookType) → List (τ k)
  | .onExpr => h.onExpr
  | .onAfterExpr => h.onExprNext
  | .onFunctionExpr => h.onFunctionExpr
  | .onBlockStart => h.onBlock
  | .onAfterBlockExpr => h.onBlockNext
  | .onType => h.onType
  | .onAfterType => h.onAfterType
  | .onTypeDeclaration => h.onTypeDecl
  | .onClassField => h.onClassField
  | .tokenTransmuter => h.tokenTransmuter

/-- The callback a mod supplies for a hook. -/
def ParserMod.callback (m : ParserMod τ) : (k : HookType) → Option (τ k)
  | .onExpr => m.onExpr
  | .onAfterExpr => m.onExprNext
  | .onFunctionExpr => m.onFunctionExpr
  | .onBlockStart => m.onBlock
  | .onAfterBlockExpr => m.onBlockNext
  | .onType => m.onType
  | .onAfterType => m.onAfterType
  | .onTypeDeclaration => m.onTypeDecl
  | .onClassField => m.onClassField
  | .tokenTransmuter => m.tokenTransmuter

/-- `has_any_hooks`. -/
def hasAnyHooks (h : GlobalParserHooks τ) : Bool :=
  decide (h.onExpr.length > 0) &&
  decide (h.onExprNext.length > 0) &&
  decide (h.onFunctionExpr.length > 0) &&
  decide (h.onBlock.length > 0) &&
  decide (h.onBlockNext.length > 0) &&
  decide (h.onType.length > 0) &&
  decide (h.onAfterType.length > 0) &&
  decide (h.onTypeDecl.length > 0) &&
  decide (h.onClassField.length > 0) &&
  decide (h.tokenTransmuter.length > 0)

/-- `EvilUtil.unwrap_opt (fun h -> l <- h :: l) o`. -/
def unwrapCons {α : Type} (o : Option α) (l : List α) : List α :=
  match o with
  | some h => h :: l
  | none => l

/-- `apply_mod`. -/
def applyMod (m : ParserMod τ) (h : GlobalParserHooks τ) : GlobalParserHooks τ :=
  { h with
    onExpr := unwrapCons m.onExpr h.onExpr
    onExprNext := unwrapCons m.onExprNext h.onExprNext
    onFunctionExpr := unwrapCons m.onFunctionExpr h.onFunctionExpr
    onBlock := unwrapCons m.onBlock h.onBlock
    onBlockNext := unwrapCons m.onBlockNext h.onBlockNext
    onType := unwrapCons m.onType h.onType
    onAfterType := unwrapCons m.onAfterType h.onAfterType
    onTypeDecl := unwrapCons m.onTypeDecl h.onTypeDecl
    onClassField := unwrapCons m.onClassField h.onClassField
    tokenTransmuter := unwrapCons m.tokenTransmuter h.tokenTransmuter }

/-- `clear_hooks`. -/
def clearHooks (h : GlobalParserHooks τ) : GlobalParserHooks τ :=
  if h.hasMods = true then
    { h with
      onExpr := []
      onExprNext := []
      onFunctionExpr := []
      onBlock := []
      onBlockNext := []
      onType := []
      onAfterType := []
      onTypeDecl := []
      onClassField := []
      tokenTransmuter := []
      hasMods := false }
  else h

/-! ## The start of a file -/

/-- The stream of a file, positions included. -/
abbrev TokenList := List (Token × Pos)

/-- A file about to be parsed: its tokens, and what the start of a parse finds in the compiler at
that moment (the registered mods, the parser of call arguments, the expression printer). -/
structure SourceFile (τ : HookType → Type) where
  toks : TokenList
  mods : String → Option (ParserMod τ)
  parseCallParams : GlobalParserHooks τ → Pos → TokenList → Except Exc (List Expr × TokenList)
  sExpr : Expr → String

/-- `parse_module_attribute_args`: the expressions after `#evil`. -/
def parseModuleAttributeArgs (f : SourceFile τ) (h : GlobalParserHooks τ) :
    TokenList → Except Exc (List Expr)
  | (.pOpen, p) :: s => (f.parseCallParams h p s).map Prod.fst
  | _ => .ok []

/-- `parse_evil_header`: the arguments of the file's `#evil`, if it starts with one. -/
def parseEvilHeader (f : SourceFile τ) (h : GlobalParserHooks τ) :
    Except Exc (Option (List Expr)) :=
  match f.toks with
  | (.sharp s, _) :: rest =>
    if s = "evil" then (parseModuleAttributeArgs f h rest).map some else .ok none
  | _ => .ok none

/-- `install_mod`. -/
def installMod (f : SourceFile τ) (name : String) (h : GlobalParserHooks τ) :
    Except Exc Unit × GlobalParserHooks τ :=
  match f.mods name with
  | some m =>
    let h := applyMod m h
    (.ok (), if hasAnyHooks h then { h with hasMods := true } else h)
  | none => (.error (.error (.custom ("Unknown Evil Haxe mod \"" ++ name ++ "\""))), h)

/-- `List.iter install_mod`. -/
def installMods (f : SourceFile τ) :
    List String → GlobalParserHooks τ → Except Exc Unit × GlobalParserHooks τ
  | [], h => (.ok (), h)
  | name :: names, h =>
    match installMod f name h with
    | (.ok (), h) => installMods f names h
    | (.error e, h) => (.error e, h)

/-- The names of the mods a header asks for. -/
def headerNames (f : SourceFile τ) (defaults : List String) (args : List Expr) : List String :=
  if args.length = 0 then defaults else args.map f.sExpr

/-- `on_parse_file_start`. The hooks are a global: they keep what was done to them when it raises. -/
def onParseFileStart (f : SourceFile τ) (h : GlobalParserHooks τ) :
    Except Exc Unit × GlobalParserHooks τ :=
  match parseEvilHeader f h with
  | .error e => (.error e, h)
  | .ok evilAttribute =>
    let h := clearHooks h
    match evilAttribute with
    | some args => installMods f (headerNames f h.defaults args) h
    | none => (.ok (), h)

/-! ## Runs of the compiler -/

/-- What happens to the hooks in a run: a file is started, or `--default-mods` is read. -/
inductive Event (τ : HookType → Type) where
  | startFile (f : SourceFile τ)
  | setDefaultMods (mods : List String)

/-- One event; `set_default_mods` only replaces the default mods. -/
def step (h : GlobalParserHooks τ) : Event τ → GlobalParserHooks τ
  | .startFile f => (onParseFileStart f h).2
  | .setDefaultMods mods => { h with defaults := mods }

/-- The hooks after a run. -/
def hooksAfter (events : List (Event τ)) : GlobalParserHooks τ :=
  events.foldl step initialHooks

/-! ## What one start does -/

@[simp] theorem unwrapCons_eq {α : Type} (o : Option α) (l : List α) :
    unwrapCons o l = o.toList ++ l := by
  cases o <;> rfl

@[simp] theorem applyMod_callbacks (m : ParserMod τ) (h : GlobalParserHooks τ) (k : HookType) :
    (applyMod m h).callbacks k = (m.callback k).toList ++ h.callbacks k := by
  cases k <;> exact unwrapCons_eq _ _

@[simp] theorem setHasMods_callbacks (h : GlobalParserHooks τ) (b : Bool) (k : HookType) :
    ({ h with hasMods := b } : GlobalParserHooks τ).callbacks k = h.callbacks k := by
  cases k <;> rfl

/-- `has_any_hooks` asks for a callback of every kind. -/
theorem hasAnyHooks_iff (h : GlobalParserHooks τ) :
    hasAnyHooks h = true ↔ ∀ k, h.callbacks k ≠ [] := by
  simp only [hasAnyHooks, Bool.and_eq_true, decide_eq_true_eq, gt_iff_lt, List.length_pos_iff]
  constructor
  · rintro ⟨⟨⟨⟨⟨⟨⟨⟨⟨h1, h2⟩, h3⟩, h4⟩, h5⟩, h6⟩, h7⟩, h8⟩, h9⟩, h10⟩ k
    cases k <;> assumption
  · intro hk
    exact ⟨⟨⟨⟨⟨⟨⟨⟨⟨hk .onExpr, hk .onAfterExpr⟩, hk .onFunctionExpr⟩, hk .onBlockStart⟩,
      hk .onAfterBlockExpr⟩, hk .onType⟩, hk .onAfterType⟩, hk .onTypeDeclaration⟩,
      hk .onClassField⟩, hk .tokenTransmuter⟩

theorem clearHooks_callbacks (h : GlobalParserHooks τ) (k : HookType) :
    (clearHooks h).callbacks k = if h.hasMods = true then [] else h.callbacks k := by
  unfold clearHooks
  split
  · cases k <;> rfl
  · rfl

@[simp] theorem clearHooks_hasMods (h : GlobalParserHooks τ) : (clearHooks h).hasMods = false := by
  unfold clearHooks
  split
  · rfl
  · rename_i hm; simpa using hm

@[simp] theorem clearHooks_defaults (h : GlobalParserHooks τ) :
    (clearHooks h).defaults = h.defaults := by
  unfold clearHooks; split <;> rfl

/-- The callbacks a list of mods supplies for a hook, the last mod's first. -/
def supplied (ms : List (ParserMod τ)) (k : HookType) : List (τ k) :=
  (ms.filterMap (·.callback k)).reverse

theorem supplied_cons (m : ParserMod τ) (ms : List (ParserMod τ)) (k : HookType) :
    supplied (m :: ms) k = supplied ms k ++ (m.callback k).toList := by
  unfold supplied
  cases hc : m.callback k <;> simp [hc]

/-- The flag `has_mods` is set exactly when every list has a callback. -/
def FlagOk (h : GlobalParserHooks τ) : Prop :=
  h.hasMods = true ↔ ∀ k, h.callbacks k ≠ []

theorem flagOk_initialHooks : FlagOk (initialHooks : GlobalParserHooks τ) := by
  constructor
  · intro h; cases h
  · intro h; exact absurd rfl (h .onExpr)

theorem flagOk_clearHooks {h : GlobalParserHooks τ} (hf : FlagOk h) : FlagOk (clearHooks h) := by
  unfold FlagOk
  rw [clearHooks_hasMods]
  constructor
  · intro hc; cases hc
  · intro hk
    by_cases hm : h.hasMods = true
    · exact absurd (by rw [clearHooks_callbacks, if_pos hm]) (hk .onExpr)
    · refine absurd (hf.2 fun k => ?_) hm
      have := hk k
      rwa [clearHooks_callbacks, if_neg hm] at this

theorem flagOk_applyMod {h : GlobalParserHooks τ} (hf : FlagOk h) (m : ParserMod τ) :
    FlagOk (if hasAnyHooks (applyMod m h) then { applyMod m h with hasMods := true } else applyMod m h) := by
  unfold FlagOk
  split
  · rename_i ha
    simp only [setHasMods_callbacks, true_iff]
    exact (hasAnyHooks_iff _).1 ha
  · rename_i ha
    rw [hasAnyHooks_iff] at ha
    refine iff_of_false (fun hm => ha fun k => ?_) ha
    have hk : h.callbacks k ≠ [] := hf.1 hm k
    simp [hk]

/-- The mods that a list of names installs: all of them, or those before the first unknown name. -/
def installed (f : SourceFile τ) : List String → List (ParserMod τ)
  | [] => []
  | name :: names =>
    match f.mods name with
    | some m => m :: installed f names
    | none => []

/-- Installing puts the callbacks of the installed mods in front of those already there. -/
theorem installMods_callbacks (f : SourceFile τ) :
    ∀ (names : List String) (h : GlobalParserHooks τ) (k : HookType),
      (installMods f names h).2.callbacks k = supplied (installed f names) k ++ h.callbacks k
  | [], h, k => rfl
  | name :: names, h, k => by
    unfold installMods installMod installed
    cases f.mods name with
    | none => rfl
    | some m =>
      simp only
      rw [installMods_callbacks f names, supplied_cons]
      split <;> simp

theorem flagOk_installMods (f : SourceFile τ) :
    ∀ (names : List String) {h : GlobalParserHooks τ}, FlagOk h → FlagOk (installMods f names h).2
  | [], _, hf => hf
  | name :: names, h, hf => by
    unfold installMods installMod
    cases f.mods name with
    | none => exact hf
    | some m => exact flagOk_installMods f names (flagOk_applyMod hf m)

/-- When no name is unknown, every mod is installed. -/
theorem installed_of_ok (f : SourceFile τ) :
    ∀ (names : List String) (h : GlobalParserHooks τ), (installMods f names h).1 = .ok () →
      installed f names = names.filterMap f.mods
  | [], _, _ => rfl
  | name :: names, h, hok => by
    unfold installMods installMod at hok
    unfold installed
    cases hm : f.mods name with
    | none => rw [hm] at hok; cases hok
    | some m =>
      rw [hm] at hok
      simp only at hok
      simp only [List.filterMap_cons, hm]
      rw [installed_of_ok f names _ hok]

/-! ## What a run does -/

theorem hooksAfter_snoc (events : List (Event τ)) (e : Event τ) :
    hooksAfter (events ++ [e]) = step (hooksAfter events) e := by
  simp [hooksAfter]

theorem flagOk_step {h : GlobalParserHooks τ} (hf : FlagOk h) (e : Event τ) : FlagOk (step h e) := by
  cases e with
  | setDefaultMods mods =>
    exact ⟨fun hm k => by have := hf.1 hm k; cases k <;> exact this,
      fun hk => hf.2 fun k => by have := hk k; cases k <;> exact this⟩
  | startFile f =>
    show FlagOk (onParseFileStart f h).2
    unfold onParseFileStart
    cases parseEvilHeader f h with
    | error e => exact hf
    | ok evilAttribute =>
      cases evilAttribute with
      | none => exact flagOk_clearHooks hf
      | some args => exact flagOk_installMods f _ (flagOk_clearHooks hf)

theorem flagOk_hooksAfter (events : List (Event τ)) : FlagOk (hooksAfter events) := by
  induction events using List.reverseRecOn with
  | nil => exact flagOk_initialHooks
  | append_singleton events e ih => rw [hooksAfter_snoc]; exact flagOk_step ih e

/-- The mods a file's own header names (none without a header). -/
def ownMods (f : SourceFile τ) (h : GlobalParserHooks τ) : List (ParserMod τ) :=
  match parseEvilHeader f h with
  | .ok (some args) => (headerNames f h.defaults args).filterMap f.mods
  | _ => []

/-- A successful start: the callbacks of the file's own mods, in front of what `clear_hooks` left. -/
theorem onParseFileStart_callbacks {f : SourceFile τ} {h : GlobalParserHooks τ}
    (hok : (onParseFileStart f h).1 = .ok ()) (k : HookType) :
    (onParseFileStart f h).2.callbacks k =
      supplied (ownMods f h) k ++ if h.hasMods = true then [] else h.callbacks k := by
  unfold onParseFileStart at hok ⊢
  unfold ownMods
  cases hp : parseEvilHeader f h with
  | error e => rw [hp] at hok; cases hok
  | ok evilAttribute =>
    rw [hp] at hok
    cases evilAttribute with
    | none => exact clearHooks_callbacks h k
    | some args =>
      simp only [clearHooks_defaults] at hok ⊢
      rw [installMods_callbacks, installed_of_ok f _ _ hok, clearHooks_callbacks]

/-- Hook isolation of a run: after each successful start of a file, each hook list holds the
callbacks of the file's own mods and nothing else. -/
def HookIsolation (events : List (Event τ)) : Prop :=
  ∀ past f future, events = past ++ .startFile f :: future →
    (onParseFileStart f (hooksAfter past)).1 = .ok () →
    ∀ k, (hooksAfter (past ++ [.startFile f])).callbacks k = supplied (ownMods f (hooksAfter past)) k

/-- The lists are all empty or all in use. -/
def AllOrNone (h : GlobalParserHooks τ) : Prop :=
  (∀ k, h.callbacks k = []) ∨ (∀ k, h.callbacks k ≠ [])

/-- One successful start isolates the file exactly when the callbacks it found cover every hook
or there were none. -/
theorem isolated_iff {f : SourceFile τ} {h : GlobalParserHooks τ} (hf : FlagOk h)
    (hok : (onParseFileStart f h).1 = .ok ()) :
    (∀ k, (onParseFileStart f h).2.callbacks k = supplied (ownMods f h) k) ↔ AllOrNone h := by
  simp only [onParseFileStart_callbacks hok, List.append_right_eq_self]
  constructor
  · intro hk
    by_cases hm : h.hasMods = true
    · exact .inr (hf.1 hm)
    · exact .inl fun k => by simpa [hm] using hk k
  · rintro (hn | ha) k
    · simp [hn k]
    · simp [hf.2 ha]

/-- A run isolates its files exactly when, before each file that starts successfully, the callbacks
left by the earlier files cover all ten hooks or there are none left: only then does `clear_hooks`
have nothing to do or find `has_mods` set. -/
theorem hookIsolation_iff (events : List (Event τ)) :
    HookIsolation events ↔
      ∀ past f future, events = past ++ .startFile f :: future →
        (onParseFileStart f (hooksAfter past)).1 = .ok () → AllOrNone (hooksAfter past) := by
  unfold HookIsolation
  simp only [hooksAfter_snoc, step]
  constructor
  · intro hi past f future he hok
    exact (isolated_iff (flagOk_hooksAfter past) hok).1 (hi past f future he hok)
  · intro hc past f future he hok
    exact (isolated_iff (flagOk_hooksAfter past) hok).2 (hc past f future he hok)

end

/-! ## A header whose mod supplies one hook, then a file without one -/

/-- A mod with a single callback, as `Pipe` is. -/
def pipeFile : SourceFile (fun _ => Unit) where
  toks := [(.sharp "evil", nullPos)]
  mods := fun name => if name = "pipe" then some { onExprNext := some () } else none
  parseCallParams := fun _ _ s => .ok ([], s)
  sExpr := fun _ => ""

/-- A file without header. -/
def plainFile : SourceFile (fun _ => Unit) := { pipeFile with toks := [] }

/-- The callback of the first file is still installed in the second. -/
theorem pipe_survives : ¬ HookIsolation [.startFile pipeFile, .startFile plainFile] := by
  intro h
  have := h [.startFile pipeFile] plainFile [] rfl (by rfl) .onAfterExpr
  exact absurd this (by decide)

end EvilHaxe.Evil
