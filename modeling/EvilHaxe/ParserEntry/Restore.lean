/-
After which parses the global state is what it was before.

`parse` restores it on every way out but two: an exception of `skip_header`, which is called before the
`try`, and an exception that the handler for the two exceptions of `Stream` raises itself, when it looks for
the token to blame. `parse_string` restores what is its own when the parse returns or raises `Parser.Error`
or `Lexer.Error`, and after no other exception.
-/
import EvilHaxe.ParserEntry.Globals

namespace EvilHaxe.ParserEntry.Restore

open EvilHaxe.Syntax M

variable {τ α β : Type}

/-! ## Runs -/

/-- The state in which `parse` calls `skip_header`. -/
def setup (x : Parser τ α) (code : Nat) (file : String) (g : Globals τ) : Globals τ :=
  { g with
    caches := Function.update g.caches g.nextCache []
    cache := g.nextCache
    nextCache := g.nextCache + 1
    codeRef := code
    inDisplay := decide (g.displayPosition ≠ nullPos)
    inDisplayFile := decide (g.displayPosition ≠ nullPos) && x.isInFile g.displayPosition file
    syntaxErrors := []
    lastDoc := none
    inMacro := x.definedMacro }

/-- What `parse` puts back. -/
def putBack (g s : Globals τ) : Globals τ :=
  { s with
    cache := g.cache
    inDisplay := g.inDisplay
    inMacro := g.inMacro
    inDisplayFile := g.inDisplayFile
    codeRef := g.codeRef
    cur := g.cur }

/-- The parse between `skip_header` and the exit. -/
def read (x : Parser τ α) : M τ α := do
  let l ← x.entry
  parse.unclosed x
  pure l

/-- How `parse` goes on with what has been read. -/
def leave (x : Parser τ α) (g : Globals τ) : Except Raised α × Globals τ → Except Raised (ParseResult α) × Globals τ
  | (.ok l, s) =>
    if x.blocksClosed s.rest then (.ok (parse.result l s.inDisplayFile s.syntaxErrors.reverse), putBack g s)
    else (.error (.other "Assert_failure"), putBack g s)
  | (.error e, s) =>
    if e.isStream then
      match parse.last x s with
      | (.ok t, s) => (.error (.error (.unexpected t.1) t.2), putBack g s)
      | (.error e, s) => (.error e, s)
    else (.error e, putBack g s)

/-- The handler of `parse`. -/
def handler (x : Parser τ α) (g : Globals τ) : Raised → M τ (ParseResult α)
  | .streamError _ | .streamFailure => do
    let last ← parse.last x
    modify (putBack g)
    throw (.error (.unexpected last.1) last.2)
  | e => do
    modify (putBack g)
    throw e

theorem handler_run (x : Parser τ α) (g : Globals τ) (e : Raised) (s : Globals τ) :
    handler x g e s = leave x g (.error e, s) := by
  have hstream : ((do
      let last ← parse.last x
      modify (putBack g)
      throw (.error (.unexpected last.1) last.2) : M τ (ParseResult α)) s) =
      match parse.last x s with
      | (.ok t, s) => (.error (.error (.unexpected t.1) t.2), putBack g s)
      | (.error e, s) => (.error e, s) := by
    rw [bind_run]
    rcases parse.last x s with ⟨_ | _, _⟩ <;> rfl
  cases e with
  | streamError msg => exact hstream
  | streamFailure => exact hstream
  | _ => rfl

/-- The `try` of `parse`. -/
def attempt (x : Parser τ α) (g : Globals τ) : M τ (ParseResult α) := do
  let l ← x.entry
  parse.unclosed x
  let wasDisplayFile := (← get).inDisplayFile
  modify (putBack g)
  let errors := (← get).syntaxErrors.reverse
  parse.assertClosed x
  pure (parse.result l wasDisplayFile errors)

theorem parse_eq (x : Parser τ α) (code : Nat) (file : String) (g : Globals τ) :
    parse x code file g =
      M.andThen (skipHeader code (setup x code file g)) fun _ => tryWith (attempt x g) (handler x g) := by
  have hhandler : (fun e : Raised => (match e with
      | .streamError _ | .streamFailure => do
        let last ← parse.last x
        Lexer.restore g.cur
        modify fun s => { s with cache := g.cache }
        modify fun s => { s with inDisplay := g.inDisplay }
        modify fun s => { s with inMacro := g.inMacro }
        modify fun s => { s with inDisplayFile := g.inDisplayFile }
        modify fun s => { s with codeRef := g.codeRef }
        throw (.error (.unexpected last.1) last.2)
      | e => do
        Lexer.restore g.cur
        modify fun s => { s with cache := g.cache }
        modify fun s => { s with inDisplay := g.inDisplay }
        modify fun s => { s with inMacro := g.inMacro }
        modify fun s => { s with inDisplayFile := g.inDisplayFile }
        modify fun s => { s with codeRef := g.codeRef }
        throw e : M τ (ParseResult α))) = handler x g := by
    funext e
    cases e <;> rfl
  rw [← hhandler]
  rfl

theorem attempt_run (x : Parser τ α) (g s : Globals τ) :
    tryWith (attempt x g) (handler x g) s = leave x g (read x s) := by
  unfold tryWith attempt read
  simp only [bind_run]
  rcases x.entry s with ⟨e | l, s⟩
  · exact handler_run x g e s
  simp only [M.andThen_ok, bind_run]
  rcases parse.unclosed x s with ⟨e | ⟨⟩, s⟩
  · exact handler_run x g e s
  simp only [M.andThen_ok, bind_run, get_run, modify_run, pure_run, parse.assertClosed, leave]
  have hrest : (putBack g s).rest = s.rest := rfl
  rw [hrest]
  cases x.blocksClosed s.rest with
  | false => exact handler_run x g (.other "Assert_failure") (putBack g s)
  | true => rfl

theorem parse_run (x : Parser τ α) (code : Nat) (file : String) (g : Globals τ) :
    parse x code file g =
      match skipHeader code (setup x code file g) with
      | (.ok (), s) => leave x g (read x s)
      | (.error e, s) => (.error e, s) := by
  rw [parse_eq]
  rcases skipHeader code (setup x code file g) with ⟨e | ⟨⟩, s⟩
  · rfl
  · exact attempt_run x g s

/-! ## What the token cache tells -/

/-- Tokens are only added to the current array, or to newer ones. -/
structure AddsTokens (f : M τ α) : Prop where
  adds : ∀ g, g.cache < g.nextCache → g.cache ≤ (f g).2.cache ∧ (f g).2.cache < (f g).2.nextCache ∧
    g.nextCache ≤ (f g).2.nextCache ∧ ∀ i < g.cache, (f g).2.caches i = g.caches i

theorem addsTokens_of_eq {f : M τ α} (hf : ∀ g, (f g).2 = g) : AddsTokens f where
  adds g hg := by
    rw [hf]
    exact ⟨Nat.le_refl _, hg, Nat.le_refl _, fun _ _ => rfl⟩

theorem AddsTokens.bind {f : M τ α} {k : α → M τ β} (hf : AddsTokens f) (hk : ∀ a, AddsTokens (k a)) :
    AddsTokens (f >>= k) where
  adds g hg := by
    obtain ⟨h1, h2, h3, h4⟩ := hf.adds g hg
    rw [bind_run]
    rcases hr : f g with ⟨e | a, s⟩ <;> rw [hr] at h1 h2 h3 h4
    · exact ⟨h1, h2, h3, h4⟩
    · obtain ⟨k1, k2, k3, k4⟩ := (hk a).adds s h2
      refine ⟨Nat.le_trans h1 k1, k2, Nat.le_trans h3 k3, fun i hi => ?_⟩
      exact (k4 i (Nat.lt_of_lt_of_le hi h1)).trans (h4 i hi)

theorem addsTokens_syntaxErrorAt (msg : ErrorMsg) (p : Pos) : AddsTokens (syntaxErrorAt msg p : M τ Unit) where
  adds g hg := by
    have h : (syntaxErrorAt msg p g).2.cache = g.cache ∧ (syntaxErrorAt msg p g).2.nextCache = g.nextCache ∧
        (syntaxErrorAt msg p g).2.caches = g.caches := by
      unfold syntaxErrorAt
      simp only [bind_run, get_run, M.andThen_ok]
      split <;> exact ⟨rfl, rfl, rfl⟩
    rw [h.1, h.2.1, h.2.2]
    exact ⟨Nat.le_refl _, hg, Nat.le_refl _, fun _ _ => rfl⟩

/-- The functions that read the tokens leave older arrays alone. -/
structure Parser.AddsTokens (x : Parser τ α) : Prop where
  entry : Restore.AddsTokens x.entry
  peek : Restore.AddsTokens x.peek

variable {x : Parser τ α}

theorem Parser.AddsTokens.read (hx : x.AddsTokens) : Restore.AddsTokens (read x) := by
  refine .bind hx.entry fun l => .bind ?_ fun _ => addsTokens_of_eq fun _ => rfl
  refine .bind (addsTokens_of_eq fun _ => rfl) fun g => ?_
  split
  · exact addsTokens_syntaxErrorAt _ _
  · exact addsTokens_of_eq fun _ => rfl

theorem Parser.AddsTokens.last (hx : x.AddsTokens) : Restore.AddsTokens (parse.last x) := by
  refine .bind hx.peek fun t => ?_
  cases t with
  | some t => exact addsTokens_of_eq fun _ => rfl
  | none =>
    refine .bind (addsTokens_of_eq fun _ => rfl) fun g => ?_
    split <;> exact addsTokens_of_eq fun _ => rfl

/-! ## `parse` -/

/-- The state that `parse` changes is what it was. -/
structure Restored (g s : Globals τ) : Prop where
  inDisplay : s.inDisplay = g.inDisplay
  inDisplayFile : s.inDisplayFile = g.inDisplayFile
  inMacro : s.inMacro = g.inMacro
  codeRef : s.codeRef = g.codeRef
  cache : s.cache = g.cache
  tokens : s.caches g.cache = g.caches g.cache
  cur : s.cur = g.cur

/-- The state in which the tokens are read. -/
def headed (x : Parser τ α) (code : Nat) (file : String) (g : Globals τ) : Globals τ :=
  (skipHeader code (setup x code file g)).2

/-- `skip_header` returns, and there is a token to blame for an exception of `Stream`. -/
structure Restorable (x : Parser τ α) (code : Nat) (file : String) (g : Globals τ) : Prop where
  header : ∃ l, Lexer.skipHeader (g.texts code) = .ok l
  token : ∀ e s, read x (headed x code file g) = (.error e, s) → e.isStream = true →
    ∃ t s', parse.last x s = (.ok t, s')

theorem skipHeader_run (code : Nat) (g : Globals τ) :
    skipHeader code g =
      match Lexer.skipHeader (g.texts code) with
      | .ok l => (.ok (), { g with texts := Function.update g.texts code l })
      | .error e => (.error e, g) := by
  unfold skipHeader
  simp only [bind_run, get_run, M.andThen_ok]
  cases Lexer.skipHeader (g.texts code) <;> rfl

/-- A state of the parse: the token array is a new one, and the older ones are untouched. -/
structure Within (g s : Globals τ) : Prop where
  cache : g.nextCache ≤ s.cache
  next : s.cache < s.nextCache
  tokens : ∀ i < g.nextCache, s.caches i = g.caches i

theorem within_headed (x : Parser τ α) (code : Nat) (file : String) (g : Globals τ) :
    Within g (headed x code file g) := by
  have hsetup : Within g (setup x code file g) :=
    ⟨Nat.le_refl _, Nat.lt_succ_self _, fun i hi => Function.update_of_ne (Nat.ne_of_lt hi) _ _⟩
  rw [headed, skipHeader_run]
  split
  · exact ⟨hsetup.cache, hsetup.next, hsetup.tokens⟩
  · exact hsetup

theorem Within.after {g s : Globals τ} (h : Within g s) {f : M τ β} (hf : AddsTokens f) : Within g (f s).2 := by
  obtain ⟨h1, h2, -, h4⟩ := hf.adds s h.next
  exact ⟨Nat.le_trans h.cache h1, h2, fun i hi => (h4 i (Nat.lt_of_lt_of_le hi h.cache)).trans (h.tokens i hi)⟩

/-- After a header the tokens are read. -/
theorem parse_of_header (x : Parser τ α) {code : Nat} (file : String) {g : Globals τ} {l : Text}
    (h : Lexer.skipHeader (g.texts code) = .ok l) :
    parse x code file g = leave x g (read x (headed x code file g)) := by
  have hheader : (setup x code file g).texts code = g.texts code := rfl
  rw [parse_run, headed, skipHeader_run, hheader, h]

theorem parse_of_no_header (x : Parser τ α) {code : Nat} (file : String) {g : Globals τ} {e : Raised}
    (h : Lexer.skipHeader (g.texts code) = .error e) :
    parse x code file g = (.error e, headed x code file g) := by
  have hheader : (setup x code file g).texts code = g.texts code := rfl
  rw [parse_run, headed, skipHeader_run, hheader, h]

/-- The state when `parse` has read what it reads. -/
def readState (x : Parser τ α) (code : Nat) (file : String) (g : Globals τ) : Globals τ :=
  match read x (headed x code file g) with
  | (.ok _, s) => s
  | (.error e, s) => if e.isStream then (parse.last x s).2 else s

/-- The state that `parse` leaves: put back, or one of the parse. -/
theorem parse_state (hx : x.AddsTokens) (code : Nat) (file : String) (g : Globals τ) :
    (Restorable x code file g ∧ Within g (readState x code file g) ∧
        (parse x code file g).2 = putBack g (readState x code file g)) ∨
      (¬ Restorable x code file g ∧ Within g (parse x code file g).2) := by
  have hheaded := within_headed x code file g
  cases htext : Lexer.skipHeader (g.texts code) with
  | error e =>
    rw [parse_of_no_header x file htext]
    refine .inr ⟨fun h => ?_, hheaded⟩
    obtain ⟨l, hl⟩ := h.header
    rw [htext] at hl
    cases hl
  | ok l =>
    rw [parse_of_header x file htext]
    have hread := hheaded.after hx.read
    unfold readState
    rcases hr : read x (headed x code file g) with ⟨e | a, s⟩ <;> rw [hr] at hread
    · by_cases he : e.isStream = true
      · have hlast := hread.after hx.last
        dsimp only [leave]
        rw [if_pos he, if_pos he]
        rcases ht : parse.last x s with ⟨e' | t, s'⟩ <;> rw [ht] at hlast
        · refine .inr ⟨fun h => ?_, hlast⟩
          obtain ⟨t, s'', ht'⟩ := h.token e s hr he
          rw [ht] at ht'
          cases ht'
        · refine .inl ⟨⟨⟨l, htext⟩, fun e1 s1 hr1 _ => ?_⟩, hlast, rfl⟩
          cases hr.symm.trans hr1
          exact ⟨t, s', ht⟩
      · dsimp only [leave]
        rw [if_neg he, if_neg he]
        refine .inl ⟨⟨⟨l, htext⟩, fun e1 s1 hr1 he1 => ?_⟩, hread, rfl⟩
        cases hr.symm.trans hr1
        exact absurd he1 he
    · refine .inl ⟨⟨⟨l, htext⟩, fun e1 s1 hr1 _ => ?_⟩, hread, ?_⟩
      · cases hr.symm.trans hr1
      · dsimp only [leave]
        split <;> rfl

theorem restored_putBack {g s : Globals τ} (hg : g.cache < g.nextCache) (h : Within g s) : Restored g (putBack g s) :=
  ⟨rfl, rfl, rfl, rfl, rfl, h.tokens g.cache hg, rfl⟩

/-- Already the reference to the token array tells whether `parse` has restored the state. -/
theorem parse_cache_iff (hx : x.AddsTokens) (code : Nat) (file : String) {g : Globals τ} (hg : g.cache < g.nextCache) :
    (parse x code file g).2.cache = g.cache ↔ Restorable x code file g := by
  rcases parse_state hx code file g with ⟨h, -, hs⟩ | ⟨h, hs⟩
  · rw [hs]
    exact iff_of_true rfl h
  · refine iff_of_false (fun heq => ?_) h
    have hnew := hs.cache
    rw [heq] at hnew
    exact absurd hg (Nat.not_lt.2 hnew)

theorem parse_restored_iff (hx : x.AddsTokens) (code : Nat) (file : String) {g : Globals τ}
    (hg : g.cache < g.nextCache) :
    Restored g (parse x code file g).2 ↔ Restorable x code file g := by
  constructor
  · exact fun h => (parse_cache_iff hx code file hg).1 h.cache
  · intro h
    rcases parse_state hx code file g with ⟨-, hs, heq⟩ | ⟨hnot, -⟩
    · rw [heq]
      exact restored_putBack hg hs
    · exact absurd h hnot

/-! ## `parse_string` -/

/-- The state in which `parse_string` makes a buffer of the text. -/
def stringSetup (pfile : String) (inlined : Bool) (g : Globals τ) : Globals τ :=
  let g := { g with syntaxErrors := [] }
  if inlined then (Lexer.init pfile g).2 else { g with displayPosition := nullPos, inDisplayFile := false }

/-- The state in which it parses the buffer. -/
def buffered (text : Text) (g : Globals τ) : Globals τ :=
  { g with texts := Function.update g.texts g.nextText text, nextText := g.nextText + 1 }

/-- What `parse_string` puts back. -/
def stringPutBack (pfile : String) (inlined : Bool) (g s : Globals τ) : Globals τ :=
  let s := match g.allFiles pfile with
    | none => s
    | some f => { s with allFiles := Function.update s.allFiles pfile (some f) }
  let s := if inlined then s else { s with displayPosition := g.displayPosition, inDisplayFile := g.inDisplayFile }
  { s with
    syntaxErrors := g.syntaxErrors
    cur := g.cur
    files := Function.update s.files g.cur { s.files g.cur with data := (g.files g.cur).data } }

/-- How `parse_string` goes on after the parse. -/
def stringLeave (pfile : String) (p : Pos) (error : Raised → Pos → Raised) (inlined : Bool) (g : Globals τ) :
    Except Raised (ParseResult α) × Globals τ → Except Raised (ParseResult α) × Globals τ
  | (.ok r, s) => (.ok r, stringPutBack pfile inlined g s)
  | (.error (.error msg pe), s) =>
    (.error (error (.error msg pe) (if inlined then pe else p)), stringPutBack pfile inlined g s)
  | (.error (.lexerError msg pe), s) =>
    (.error (error (.lexerError msg pe) (if inlined then pe else p)), stringPutBack pfile inlined g s)
  | (.error e, s) => (.error e, s)

/-- What `parse_string` runs to put the state back. -/
def stringRestore (pfile : String) (inlined : Bool) (g : Globals τ) : M τ Unit := do
  parseString.restoreEntry pfile (g.allFiles pfile)
  if !inlined then do
    modify fun s => { s with displayPosition := g.displayPosition }
    modify fun s => { s with inDisplayFile := g.inDisplayFile }
  modify fun s => { s with syntaxErrors := g.syntaxErrors }
  Lexer.restore g.cur
  modify fun s =>
    { s with files := Function.update s.files g.cur (copyFile (copyFile (g.files g.cur) (makeFile (g.files
      g.cur).lfile)) (s.files g.cur)) }

theorem stringRestore_run (pfile : String) (inlined : Bool) (g s : Globals τ) :
    stringRestore pfile inlined g s = (.ok (), stringPutBack pfile inlined g s) := by
  unfold stringRestore stringPutBack parseString.restoreEntry
  cases g.allFiles pfile <;> cases inlined <;> rfl

theorem parseString_eq (x : Parser τ α) (text : Option Text) (pfile : String) (p : Pos) (error : Raised → Pos → Raised)
    (inlined : Bool) (g : Globals τ) :
    parseString x text pfile p error inlined g =
      (do
        let result ← tryWith
          (do
            let code ← fromString text
            parse x code pfile)
          fun
            | .error msg pe => do
              stringRestore pfile inlined g
              throw (error (.error msg pe) (if inlined then pe else p))
            | .lexerError msg pe => do
              stringRestore pfile inlined g
              throw (error (.lexerError msg pe) (if inlined then pe else p))
            | e => throw e
        stringRestore pfile inlined g
        pure result : M τ (ParseResult α)) (stringSetup pfile inlined g) := by
  cases inlined <;> rfl

theorem parseString_run (x : Parser τ α) (text : Option Text) (pfile : String) (p : Pos) (error : Raised → Pos → Raised)
    (inlined : Bool) (g : Globals τ) :
    parseString x text pfile p error inlined g =
      stringLeave pfile p error inlined g
        (match text with
        | some text => parse x g.nextText pfile (buffered text (stringSetup pfile inlined g))
        | none => (.error (.other "Sedlexing.MalFormed"), stringSetup pfile inlined g)) := by
  have hrestore := stringRestore_run pfile inlined g
  have hnext : (stringSetup pfile inlined g).nextText = g.nextText := by
    cases inlined <;> rfl
  rw [parseString_eq]
  cases text with
  | none => rfl
  | some text =>
    have hbuffer : (do
        let code ← fromString (some text)
        parse x code pfile : M τ (ParseResult α)) (stringSetup pfile inlined g) =
        parse x g.nextText pfile (buffered text (stringSetup pfile inlined g)) := by
      rw [← hnext]
      rfl
    dsimp only
    rw [bind_run]
    unfold tryWith
    rw [hbuffer]
    rcases parse x g.nextText pfile (buffered text (stringSetup pfile inlined g)) with ⟨e | r, s⟩
    · cases e with
      | error msg pe => simp only [bind_run, hrestore, M.andThen_ok, throw_run, M.andThen_error, stringLeave]
      | lexerError msg pe => simp only [bind_run, hrestore, M.andThen_ok, throw_run, M.andThen_error, stringLeave]
      | _ => rfl
    · simp only [bind_run, hrestore, M.andThen_ok, pure_run, stringLeave]

/-! ## What `parse_string` restores -/

/-- The state that `parse_string` changes is what it was. -/
structure RestoredAll (g s : Globals τ) : Prop extends Restored g s where
  displayPosition : s.displayPosition = g.displayPosition
  syntaxErrors : s.syntaxErrors = g.syntaxErrors
  lines : (s.files g.cur).data = (g.files g.cur).data

/-- The parse of a string is restored and raises nothing but `Parser.Error` and `Lexer.Error`, and if it is inlined, it
does not move the display position. -/
structure StringRestorable (x : Parser τ α) (text : Text) (pfile : String) (inlined : Bool) (g : Globals τ) : Prop where
  restorable : Restorable x g.nextText pfile (buffered text (stringSetup pfile inlined g))
  handled : ∀ e s, read x (headed x g.nextText pfile (buffered text (stringSetup pfile inlined g))) = (.error e, s) →
    e.isOther = true → e.isStream = true
  closed : ∀ l s, read x (headed x g.nextText pfile (buffered text (stringSetup pfile inlined g))) = (.ok l, s) →
    x.blocksClosed s.rest = true
  position : inlined = true →
    (readState x g.nextText pfile (buffered text (stringSetup pfile inlined g))).displayPosition = g.displayPosition

/-- What `parse_string` does not handle. -/
def IsOther : Except Raised (ParseResult α) → Prop
  | .error e => e.isOther = true
  | .ok _ => False

theorem stringLeave_other (pfile : String) (p : Pos) (error : Raised → Pos → Raised) (inlined : Bool) (g : Globals τ)
    {r : Except Raised (ParseResult α) × Globals τ} (hr : IsOther r.1) :
    (stringLeave pfile p error inlined g r).2 = r.2 := by
  rcases r with ⟨e | l, s⟩
  · cases e with
    | error msg pe => cases hr
    | lexerError msg pe => cases hr
    | _ => rfl
  · exact hr.elim

theorem stringLeave_handled (pfile : String) (p : Pos) (error : Raised → Pos → Raised) (inlined : Bool) (g : Globals τ)
    {r : Except Raised (ParseResult α) × Globals τ} (hr : ¬ IsOther r.1) :
    (stringLeave pfile p error inlined g r).2 = stringPutBack pfile inlined g r.2 := by
  rcases r with ⟨e | l, s⟩
  · cases e with
    | error msg pe => rfl
    | lexerError msg pe => rfl
    | _ => exact absurd rfl hr
  · rfl

/-- What a parse raises whose tokens have been read. -/
theorem parse_other_iff {code : Nat} {file : String} {g : Globals τ} (h : Restorable x code file g) :
    ¬ IsOther (parse x code file g).1 ↔
      (∀ e s, read x (headed x code file g) = (.error e, s) → e.isOther = true → e.isStream = true) ∧
      (∀ l s, read x (headed x code file g) = (.ok l, s) → x.blocksClosed s.rest = true) := by
  obtain ⟨l, hl⟩ := h.header
  rw [parse_of_header x file hl]
  rcases hr : read x (headed x code file g) with ⟨e | a, s⟩
  · dsimp only [leave]
    by_cases he : e.isStream = true
    · obtain ⟨t, s', ht⟩ := h.token e s hr he
      rw [if_pos he, ht]
      refine iff_of_true (fun hother => by cases hother) ⟨fun e1 s1 h1 _ => ?_, fun l1 s1 h1 => by cases h1⟩
      cases h1
      exact he
    · rw [if_neg he]
      constructor
      · refine fun hnot => ⟨fun e1 s1 h1 hother => ?_, fun l1 s1 h1 => by cases h1⟩
        cases h1
        exact absurd hother hnot
      · exact fun hall hother => he (hall.1 e s rfl hother)
  · dsimp only [leave]
    by_cases hclosed : x.blocksClosed s.rest = true
    · rw [if_pos hclosed]
      refine iff_of_true (fun hother => hother.elim) ⟨fun e1 s1 h1 => (by cases h1), fun l1 s1 h1 => ?_⟩
      cases h1
      exact hclosed
    · rw [if_neg hclosed]
      exact iff_of_false (fun hnot => hnot rfl) fun hall => hclosed (hall.2 a s rfl)

/-- The parse inside of `parse_string`. -/
abbrev innerParse (x : Parser τ α) (text : Text) (pfile : String) (inlined : Bool) (g : Globals τ) :
    Except Raised (ParseResult α) × Globals τ :=
  parse x g.nextText pfile (buffered text (stringSetup pfile inlined g))

section

variable (text : Text) (pfile : String) (p : Pos) (error : Raised → Pos → Raised) (inlined : Bool) {g : Globals τ}

theorem cache_setup : (buffered text (stringSetup pfile inlined g)).cache = g.cache ∧
    (buffered text (stringSetup pfile inlined g)).nextCache = g.nextCache ∧
    (buffered text (stringSetup pfile inlined g)).caches = g.caches := by
  cases inlined <;> exact ⟨rfl, rfl, rfl⟩

theorem stringPutBack_cache (s : Globals τ) : (stringPutBack pfile inlined g s).cache = s.cache := by
  unfold stringPutBack
  cases g.allFiles pfile <;> cases inlined <;> rfl

theorem stringPutBack_inDisplayFile (s : Globals τ) : (stringPutBack pfile inlined g s).inDisplayFile =
    if inlined then s.inDisplayFile else g.inDisplayFile := by
  unfold stringPutBack
  cases g.allFiles pfile <;> cases inlined <;> rfl

theorem stringPutBack_displayPosition (s : Globals τ) : (stringPutBack pfile inlined g s).displayPosition =
    if inlined then s.displayPosition else g.displayPosition := by
  unfold stringPutBack
  cases g.allFiles pfile <;> cases inlined <;> rfl

theorem stringPutBack_lines (s : Globals τ) :
    ((stringPutBack pfile inlined g s).files g.cur).data = (g.files g.cur).data := by
  unfold stringPutBack
  simp only [Function.update_self]

theorem stringPutBack_rest (s : Globals τ) :
    (stringPutBack pfile inlined g s).inDisplay = s.inDisplay ∧ (stringPutBack pfile inlined g s).inMacro = s.inMacro ∧
      (stringPutBack pfile inlined g s).codeRef = s.codeRef ∧ (stringPutBack pfile inlined g s).caches = s.caches ∧
      (stringPutBack pfile inlined g s).cur = g.cur ∧ (stringPutBack pfile inlined g s).syntaxErrors = g.syntaxErrors
        := by
  unfold stringPutBack
  cases g.allFiles pfile <;> cases inlined <;> exact ⟨rfl, rfl, rfl, rfl, rfl, rfl⟩

theorem setup_rest : (buffered text (stringSetup pfile inlined g)).inDisplay = g.inDisplay ∧
    (buffered text (stringSetup pfile inlined g)).inMacro = g.inMacro ∧
    (buffered text (stringSetup pfile inlined g)).codeRef = g.codeRef ∧
    (inlined = true → (buffered text (stringSetup pfile inlined g)).inDisplayFile = g.inDisplayFile) := by
  cases inlined <;> exact ⟨rfl, rfl, rfl, fun h => by cases h <;> rfl⟩

theorem restoredAll_stringPutBack {text pfile inlined} {s : Globals τ}
    (h : Restored (buffered text (stringSetup pfile inlined g)) s)
    (hp : inlined = true → s.displayPosition = g.displayPosition) :
    RestoredAll g (stringPutBack pfile inlined g s) := by
  obtain ⟨hdisplay, hmacro, hcode, hcaches, hcur, herrors⟩ := stringPutBack_rest pfile inlined (g := g) s
  obtain ⟨gdisplay, gmacro, gcode, gfile⟩ := setup_rest text pfile inlined (g := g)
  obtain ⟨gcache, -, gcaches⟩ := cache_setup text pfile inlined (g := g)
  refine ⟨⟨?_, ?_, ?_, ?_, ?_, ?_, hcur⟩, ?_, herrors, stringPutBack_lines pfile inlined s⟩
  · exact hdisplay.trans (h.inDisplay.trans gdisplay)
  · rw [stringPutBack_inDisplayFile]
    split
    · exact h.inDisplayFile.trans (gfile ‹_›)
    · rfl
  · exact hmacro.trans (h.inMacro.trans gmacro)
  · exact hcode.trans (h.codeRef.trans gcode)
  · exact (stringPutBack_cache pfile inlined s).trans (h.cache.trans gcache)
  · have htokens := h.tokens
    rw [gcache, gcaches] at htokens
    rw [hcaches, htokens]
  · rw [stringPutBack_displayPosition]
    split
    · exact hp ‹_›
    · rfl

theorem parseString_restored (hx : x.AddsTokens) (hg : g.cache < g.nextCache)
    (h : StringRestorable x text pfile inlined g) :
    RestoredAll g (parseString x (some text) pfile p error inlined g).2 := by
  have hnot := (parse_other_iff h.restorable).2 ⟨h.handled, h.closed⟩
  rw [parseString_run, stringLeave_handled pfile p error inlined g hnot]
  obtain ⟨hc, hn, -⟩ := cache_setup (g := g) text pfile inlined
  refine restoredAll_stringPutBack ((parse_restored_iff hx _ _ (by rwa [hc, hn])).2 h.restorable) fun hinlined => ?_
  rcases parse_state hx g.nextText pfile (buffered text (stringSetup pfile inlined g)) with ⟨-, -, heq⟩ | ⟨hnot, -⟩
  · rw [heq]
    exact h.position hinlined
  · exact absurd h.restorable hnot

theorem stringRestorable_of_restored {text pfile p error inlined} (hx : x.AddsTokens) (hg : g.cache < g.nextCache)
    (hnot : ¬ IsOther (innerParse x text pfile inlined g).1)
    (h : RestoredAll g (parseString x (some text) pfile p error inlined g).2) :
    StringRestorable x text pfile inlined g := by
  rw [parseString_run, stringLeave_handled pfile p error inlined g hnot] at h
  obtain ⟨hc, hn, -⟩ := cache_setup (g := g) text pfile inlined
  have hcache : (innerParse x text pfile inlined g).2.cache = g.cache := by
    rw [← h.cache, stringPutBack_cache]
  have hrest := (parse_cache_iff hx g.nextText pfile (by rwa [hc, hn])).1 (hcache.trans hc.symm)
  obtain ⟨hhandled, hclosed⟩ := (parse_other_iff hrest).1 hnot
  refine ⟨hrest, hhandled, hclosed, fun hinlined => ?_⟩
  rcases parse_state hx g.nextText pfile (buffered text (stringSetup pfile inlined g)) with ⟨-, -, heq⟩ | ⟨hno, -⟩
  · have hp := h.displayPosition
    rw [heq] at hp
    subst hinlined
    rw [← hp]
    unfold stringPutBack
    cases g.allFiles pfile <;> rfl
  · exact absurd hrest hno

end

/-- A parser that reads nothing, and raises what it is given. -/
def raising (r : Except Raised Unit) : Parser Unit Unit where
  entry := fun g => (r, g)
  peek := pure none
  count _ := 0
  mstack _ := []
  blocksClosed _ := true
  definedMacro := false
  isInFile _ _ := false

/-- A state in a display request, with one file of the given text. -/
def displayed (text : Text) : Globals Unit where
  inDisplay := false
  inDisplayFile := false
  inMacro := false
  codeRef := 0
  cache := 0
  caches _ := []
  nextCache := 1
  cur := 0
  files _ := makeFile "Main.hx"
  nextFile := 1
  allFiles _ := none
  displayPosition := ⟨10, 10⟩
  syntaxErrors := []
  lastDoc := none
  texts _ := text
  nextText := 2
  rest := ()

theorem addsTokens_raising (r : Except Raised Unit) : (raising r).AddsTokens :=
  ⟨addsTokens_of_eq fun _ => rfl, addsTokens_of_eq fun _ => rfl⟩

end EvilHaxe.ParserEntry.Restore
