/-
The global state around a parse: what `parse` and `parse_string` of `parserEntry.ml` set, save and restore.

What reads the tokens is a parameter: it may do anything to the state, and raise anything. The mutable
records and arrays of the source stand in tables here, and references to them are numbers.
-/
import EvilHaxe.Syntax.Parser
import Mathlib.Algebra.Ring.Nat
import Mathlib.Algebra.Ring.Int.Defs

namespace EvilHaxe.ParserEntry.Restore

open EvilHaxe.Syntax

/-! ## The state -/

/-- The mutable part of a `lexer_file`. -/
structure LineData where
  lline : Nat
  lmaxline : Nat
  llines : List (Nat × Nat)
  lalines : List (Nat × Nat)
  llast : Nat
  llastindex : Nat
  deriving DecidableEq

structure LexerFile where
  lfile : String
  data : LineData

/-- A character of a file, or bytes that are none. -/
abbrev Text := List (Option Char)

structure Globals (τ : Type) where
  inDisplay : Bool
  inDisplayFile : Bool
  inMacro : Bool
  codeRef : Nat
  /-- `TokenCache.cache`, among the token arrays. -/
  cache : Nat
  caches : Nat → List (Token × Pos)
  nextCache : Nat
  /-- `Lexer.cur`, among the file records. -/
  cur : Nat
  files : Nat → LexerFile
  nextFile : Nat
  allFiles : String → Option Nat
  displayPosition : Pos
  syntaxErrors : List (ErrorMsg × Pos)
  lastDoc : Option (String × Int)
  /-- What is left of each lexing buffer. -/
  texts : Nat → Text
  nextText : Nat
  rest : τ

inductive Raised where
  | streamError (msg : String)
  | streamFailure
  | error (msg : ErrorMsg) (p : Pos)
  | lexerError (msg : String) (p : Pos)
  | other (name : String)
  deriving DecidableEq

/-- `Stream.Error _` and `Stream.Failure`. -/
def Raised.isStream : Raised → Bool
  | .streamError _ | .streamFailure => true
  | _ => false

/-- The exceptions that `parse_string` does not handle. -/
def Raised.isOther : Raised → Bool
  | .error _ _ | .lexerError _ _ => false
  | _ => true

/-- Programs with exceptions, which leave the state as it was when they were raised. -/
def M (τ α : Type) : Type := Globals τ → Except Raised α × Globals τ

variable {τ α β : Type}

namespace M

def andThen (r : Except Raised α × Globals τ) (k : α → M τ β) : Except Raised β × Globals τ :=
  match r with
  | (.ok a, g) => k a g
  | (.error e, g) => (.error e, g)

instance : Monad (M τ) where
  pure a := fun g => (.ok a, g)
  bind f k := fun g => andThen (f g) k

def get : M τ (Globals τ) := fun g => (.ok g, g)

def modify (f : Globals τ → Globals τ) : M τ Unit := fun g => (.ok (), f g)

def throw (e : Raised) : M τ α := fun g => (.error e, g)

/-- `try f with`. -/
def tryWith (f : M τ α) (h : Raised → M τ α) : M τ α := fun g =>
  match f g with
  | (.ok a, g) => (.ok a, g)
  | (.error e, g) => h e g

variable (g : Globals τ)

@[simp] theorem andThen_ok (a : α) (k : α → M τ β) : andThen (.ok a, g) k = k a g := rfl

@[simp] theorem andThen_error (e : Raised) (k : α → M τ β) : andThen (.error e, g) k = (.error e, g) := rfl

@[simp] theorem pure_run (a : α) : (pure a : M τ α) g = (.ok a, g) := rfl

@[simp] theorem bind_run (f : M τ α) (k : α → M τ β) : (f >>= k) g = andThen (f g) k := rfl

@[simp] theorem get_run : get g = (.ok g, g) := rfl

@[simp] theorem modify_run (f : Globals τ → Globals τ) : modify f g = (.ok (), f g) := rfl

@[simp] theorem throw_run (e : Raised) : (throw e : M τ α) g = (.error e, g) := rfl

end M

open M

/-! ## `lexer.ml` and `parser.ml` -/

/-- `make_file`. -/
def makeFile (file : String) : LexerFile :=
  ⟨file, ⟨1, 1, [(0, 1)], [(0, 1)], 2 ^ 62 - 1, 0⟩⟩

/-- `copy_file`. -/
def copyFile (source dest : LexerFile) : LexerFile := { dest with data := source.data }

namespace Lexer

/-- `init`. -/
def init (file : String) : M τ Unit := modify fun g =>
  { g with
    files := Function.update g.files g.nextFile (makeFile file)
    cur := g.nextFile
    allFiles := Function.update g.allFiles file (some g.nextFile)
    nextFile := g.nextFile + 1 }

/-- `save`. -/
def save : M τ Nat := do return (← get).cur

/-- `restore`. -/
def restore (c : Nat) : M τ Unit := modify fun g => { g with cur := c }

/-- `skip_header`, on what is left of a buffer: the byte order mark and the line after `#!`. -/
def skipHeader : Text → Except Raised Text
  | some '\ufeff' :: l => skipHeader l
  | some '#' :: some '!' :: l => skipLine l
  | none :: _ | some '#' :: none :: _ => .error (.other "Sedlexing.MalFormed")
  | l => .ok l
where
  /-- After `#!`, and from the end of the line on. -/
  skipLine : Text → Except Raised Text
    | some c :: l => if c = '\n' ∨ c = '\r' then .ok (some c :: l) else skipLine l
    | none :: _ => .error (.other "Sedlexing.MalFormed")
    | [] => .ok []

end Lexer

/-- `TokenCache.clear`, and what it returns. -/
def clear : M τ (M τ Unit) := do
  let oldCache := (← get).cache
  modify fun g =>
    { g with
      caches := Function.update g.caches g.nextCache []
      cache := g.nextCache
      nextCache := g.nextCache + 1 }
  pure (modify fun g => { g with cache := oldCache })

/-- `syntax_error` at a position. -/
def syntaxErrorAt (msg : ErrorMsg) (p : Pos) : M τ Unit := do
  let g ← get
  if !g.inDisplay then throw (.error msg p)
  else modify fun g => { g with syntaxErrors := (msg, p) :: g.syntaxErrors }

/-! ## `parserEntry.ml` -/

/-- What is parsed, and what `parse` asks of the functions that read it: their local variables are in the rest of the
state. -/
structure Parser (τ α : Type) where
  /-- `entry s`. -/
  entry : M τ α
  /-- `Stream.peek s`. -/
  peek : M τ (Option (Token × Pos))
  /-- `Stream.count s`. -/
  count : τ → Nat
  mstack : τ → List Pos
  /-- No dead block is open. -/
  blocksClosed : τ → Bool
  /-- `Define.defined ctx Define.Macro`. -/
  definedMacro : Bool
  /-- `display_position#is_in_file (Path.UniqueKey.create file)`. -/
  isInFile : Pos → String → Bool

inductive ParseResult (α : Type) where
  | parseSuccess (data : α) (isDisplayFile : Bool) (errors : List (ErrorMsg × Pos))
  | parseError (data : α) (error : ErrorMsg × Pos) (errors : List (ErrorMsg × Pos))

/-- `last_token`. -/
def lastToken (x : Parser τ α) : M τ (Token × Pos) := do
  let g ← get
  match (g.caches g.cache)[x.count g.rest - 1]? with
  | some t => pure t
  | none => throw (.other "DynArray.Invalid_arg")

/-- `Lexer.skip_header code`. -/
def skipHeader (code : Nat) : M τ Unit := do
  let g ← get
  match Lexer.skipHeader (g.texts code) with
  | .ok l => modify fun g => { g with texts := Function.update g.texts code l }
  | .error e => throw e

/-- `parse`. -/
def parse (x : Parser τ α) (code : Nat) (file : String) : M τ (ParseResult α) := do
  let old ← Lexer.save
  let restoreCache ← clear
  let g ← get
  let wasDisplay := g.inDisplay
  let wasDisplayFile := g.inDisplayFile
  let oldCode := g.codeRef
  let oldMacro := g.inMacro
  modify fun g => { g with codeRef := code }
  modify fun g => { g with inDisplay := decide (g.displayPosition ≠ nullPos) }
  modify fun g => { g with inDisplayFile := g.inDisplay && x.isInFile g.displayPosition file }
  modify fun g => { g with syntaxErrors := [] }
  let restore : M τ Unit := do
    restoreCache
    modify fun g => { g with inDisplay := wasDisplay }
    modify fun g => { g with inMacro := oldMacro }
    modify fun g => { g with inDisplayFile := wasDisplayFile }
    modify fun g => { g with codeRef := oldCode }
  modify fun g => { g with lastDoc := none }
  modify fun g => { g with inMacro := x.definedMacro }
  skipHeader code
  tryWith
    (do
      let l ← x.entry
      unclosed x
      let wasDisplayFile := (← get).inDisplayFile
      restore
      Lexer.restore old
      let errors := (← get).syntaxErrors.reverse
      assertClosed x
      pure (result l wasDisplayFile errors))
    fun
      | .streamError _ | .streamFailure => do
        let last ← last x
        Lexer.restore old
        restore
        throw (.error (.unexpected last.1) last.2)
      | e => do
        Lexer.restore old
        restore
        throw e
where
  /-- The check for a conditional that is not closed. -/
  unclosed (x : Parser τ α) : M τ Unit := do
    match x.mstack (← get).rest with
    | p :: _ => syntaxErrorAt .unclosedConditional p
    | [] => pure ()
  /-- The assertion of `get_dead_blocks`. -/
  assertClosed (x : Parser τ α) : M τ Unit := do
    if x.blocksClosed (← get).rest then pure () else throw (.other "Assert_failure")
  /-- The next token, or the last one. -/
  last (x : Parser τ α) : M τ (Token × Pos) := do
    match ← x.peek with
    | none => lastToken x
    | some t => pure t
  result (l : α) (wasDisplayFile : Bool) (errors : List (ErrorMsg × Pos)) : ParseResult α :=
    if wasDisplayFile then .parseSuccess l true errors
    else match errors with
      | [] => .parseSuccess l false []
      | error :: errors => .parseError l error errors

/-- `Sedlexing.Utf8.from_string`, of the characters of a string if all of its bytes are some. -/
def fromString (text : Option Text) : M τ Nat := do
  match text with
  | some text => do
    let code := (← get).nextText
    modify fun g => { g with texts := Function.update g.texts code text, nextText := code + 1 }
    pure code
  | none => throw (.other "Sedlexing.MalFormed")

/-- `parse_string`, of the characters of a string. `error` is the callback,
  given the exception whose text is its message. -/
def parseString (x : Parser τ α) (text : Option Text) (pfile : String) (p : Pos) (error : Raised → Pos → Raised)
    (inlined : Bool) : M τ (ParseResult α) := do
  let old ← Lexer.save
  let g ← get
  let oldFile := g.allFiles pfile
  let f := copyFile (g.files old) (makeFile (g.files old).lfile)
  let oldDisplay := g.displayPosition
  let oldInDisplayFile := g.inDisplayFile
  let oldSyntaxErrors := g.syntaxErrors
  modify fun g => { g with syntaxErrors := [] }
  let restore : M τ Unit := do
    restoreEntry oldFile
    if !inlined then do
      modify fun g => { g with displayPosition := oldDisplay }
      modify fun g => { g with inDisplayFile := oldInDisplayFile }
    modify fun g => { g with syntaxErrors := oldSyntaxErrors }
    Lexer.restore old
    modify fun g => { g with files := Function.update g.files old (copyFile f (g.files old)) }
  if inlined then Lexer.init pfile
  else do
    modify fun g => { g with displayPosition := nullPos }
    modify fun g => { g with inDisplayFile := false }
  let result ← tryWith
    (do
      let code ← fromString text
      parse x code pfile)
    fun
      | .error msg pe => do
        restore
        throw (error (.error msg pe) (if inlined then pe else p))
      | .lexerError msg pe => do
        restore
        throw (error (.lexerError msg pe) (if inlined then pe else p))
      | e => throw e
  restore
  pure result
where
  /-- The entry of `Lexer.all_files`, if there was one. -/
  restoreEntry (oldFile : Option Nat) : M τ Unit :=
    match oldFile with
    | none => pure ()
    | some f => modify fun g => { g with allFiles := Function.update g.allFiles pfile (some f) }

end EvilHaxe.ParserEntry.Restore
