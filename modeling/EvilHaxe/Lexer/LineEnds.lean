/-
The rules of `lexer.ml`, as far as they decide which characters a call consumes, which function goes on and where
`newline` is called; what the tokens carry is left out. A call is a frame, with what is left to do below it on a stack. Of
the rules of a function the one with the longest match is taken, and the first one of these. Positions count characters.
-/
import EvilHaxe.Lexer.LexerFile
import EvilHaxe.Lib.Regex
import Mathlib.Data.List.Basic

namespace EvilHaxe.Lexer

open Lib
open Lib.Regex hiding none

/-! ## Patterns -/

def identChar : Regex := chars [('_', '_'), ('a', 'z'), ('A', 'Z'), ('0', '9')]

def digit : Regex := chars [('0', '9')]

def ident : Regex := alts [
  seqs [star (char '_'), chars [('a', 'z')], star identChar],
  plus (char '_'),
  seqs [plus (char '_'), digit, star identChar]]

def sharpIdent : Regex :=
  let first := chars [('a', 'z'), ('A', 'Z'), ('_', '_')]
  let later := star (chars [('a', 'z'), ('A', 'Z'), ('0', '9'), ('_', '_')])
  seqs [first, later, star (seqs [char '.', first, later])]

def idtype : Regex := seqs [star (char '_'), chars [('A', 'Z')], star identChar]

def sepDigit : Regex := .seq (opt (char '_')) digit

def integerDigits : Regex := .seq digit (star sepDigit)

def hexDigit : Regex := chars [('0', '9'), ('a', 'f'), ('A', 'F')]

def sepHexDigit : Regex := .seq (opt (char '_')) hexDigit

def hexDigits : Regex := .seq hexDigit (star sepHexDigit)

def integer : Regex := alts [.seq (chars [('1', '9')]) (star sepDigit), char '0']

def integerSuffix : Regex := seqs [opt (char '_'), chars [('i', 'i'), ('u', 'u')], plus integer]

def floatSuffix : Regex := seqs [opt (char '_'), char 'f', plus integer]

def codes (ranges : List (Nat × Nat)) : List (Char × Char) := ranges.map fun r => (Char.ofNat r.1, Char.ofNat r.2)

def xmlNameStartChar : List (Char × Char) :=
  [('$', '$'), (':', ':'), ('A', 'Z'), ('_', '_'), ('a', 'z')] ++
    codes [(0xC0, 0xD6), (0xD8, 0xF6), (0xF8, 0x2FF), (0x370, 0x37D), (0x37F, 0x1FFF), (0x200C, 0x200D), (0x2070, 0x218F),
      (0x2C00, 0x2FEF), (0x3001, 0xD7FF), (0xF900, 0xFDCF), (0xFDF0, 0xFFFD), (0x10000, 0xEFFFF)]

def xmlNameChar : List (Char × Char) :=
  xmlNameStartChar ++ [('-', '-'), ('.', '.'), ('0', '9')] ++ codes [(0xB7, 0xB7), (0x0300, 0x036F), (0x203F, 0x2040)]

def xmlName : Regex := opt (.seq (chars xmlNameStartChar) (star (chars xmlNameChar)))

def toLineEnd : Regex := star (compl ['\n', '\r'])

def blanks : Regex := plus (chars [(' ', ' '), ('\t', '\t')])

/-- A line's end, where `"\r\n"` is a rule of its own. -/
def lineChar : Regex := alts [char '\n', char '\r']

def lineEnd : Regex := alts [char '\n', char '\r', lit "\r\n"]

/-! ## Frames and rules -/

/-- `xml_lexing_context`. -/
structure XmlContext where
  openTag : List Char
  closeTag : List Char
  deriving DecidableEq

/-- A call of a function of the lexer. -/
inductive Frame where
  | skipHeader
  | token
  | comment
  | string
  | string2
  | codeString (openBraces : Nat)
  | regexp
  | regexpOptions
  | notXml (ctx : XmlContext) (depth : Int) (inOpen : Bool)
  | sharpToken
  | lexXml (p : Nat)
  deriving DecidableEq

/-- What is done with a lexeme: an exception, which every handler around turns into an error, or the calls to go on with
instead of this one, if the position and the text of the lexeme allow it. -/
inductive Action where
  | raise
  | goto (next : Nat → List Char → Option (List Frame))

def Action.run : Action → Nat → List Char → Option (List Frame)
  | raise, _, _ => none
  | goto next, pos, lexeme => next pos lexeme

structure Rule where
  pattern : Regex
  newline : Bool
  action : Action

/-- A rule that goes on with the calls `next`. -/
def on (pattern : Regex) (next : List Frame) : Rule := ⟨pattern, false, .goto fun _ _ => some next⟩

/-- A rule that ends the call. -/
def done (pattern : Regex) : Rule := on pattern []

/-- A rule that counts a line first. -/
def onNewline (pattern : Regex) (next : List Frame) : Rule := ⟨pattern, true, .goto fun _ _ => some next⟩

def refuse (pattern : Regex) : Rule := ⟨pattern, false, .raise⟩

namespace Frame

def tokenRules : List Rule :=
  [on blanks [.token],
    onNewline (lit "\r\n") [.token],
    onNewline lineChar [.token],
    done (seqs [lit "0x", plus hexDigits, opt integerSuffix]),
    done (.seq integer (opt integerSuffix)),
    done (.seq integer floatSuffix),
    done (seqs [integer, char '.', plus integerDigits, opt floatSuffix]),
    done (seqs [char '.', plus integerDigits, opt floatSuffix]),
    done (seqs [integer, chars [('e', 'e'), ('E', 'E')], opt (chars [('+', '+'), ('-', '-')]), plus integerDigits,
      opt floatSuffix]),
    done (seqs [integer, char '.', star digit, chars [('e', 'e'), ('E', 'E')], opt (chars [('+', '+'), ('-', '-')]),
      plus integerDigits, opt floatSuffix]),
    done (.seq integer (lit "...")),
    done (.seq (lit "//") toLineEnd)] ++
  ["++", "--", "~", "%=", "&=", "|=", "^=", "+=", "-=", "*=", "/=", "<<=", "||=", "&&=", "??=", "==", "!=", "<=", "&&",
    "||", "<<", "->", "...", "=>", "!", "<", ">", ";", ":", ",", ".", "?.", "%", "&", "|", "^", "+", "*", "/", "-", "=",
    "[", "]", "\x7b", "\x7d", "(", ")", "??", "?", "@"].map (fun s => done (lit s)) ++
  [on (lit "/*") [.comment],
    on (char '"') [.string],
    on (char '\'') [.string2],
    on (lit "~/") [.regexp],
    done (.seq (char '#') ident),
    done (.seq (char '$') (star identChar))] ++
  ["package", "import", "using", "class", "interface", "enum", "abstract", "typedef", "extends", "implements", "extern",
    "static", "public", "private", "override", "dynamic", "inline", "macro", "final", "operator", "overload", "function",
    "var", "null", "true", "false", "this", "if", "else", "while", "do", "for", "break", "continue", "return", "switch",
    "case", "default", "throw", "try", "catch", "untyped", "new", "in", "cast"].map (fun s => done (lit s)) ++
  [done ident, done idtype]

/-- The closing tag rule of `not_xml`. -/
def closeTag (ctx : XmlContext) (depth : Int) (s : List Char) : List Frame :=
  if s = ctx.closeTag then
    if depth = 0 then [] else [.notXml ctx (depth - 1) false]
  else [.notXml ctx depth false]

/-- The opening tag rule of `not_xml`. -/
def openTag (ctx : XmlContext) (depth : Int) (s : List Char) : List Frame :=
  if s = ctx.openTag then [.notXml ctx (depth + 1) true] else [.notXml ctx depth false]

/-- The rule of `not_xml` for the end of a tag without content. -/
def emptyTag (ctx : XmlContext) (depth : Int) (inOpen : Bool) : List Frame :=
  let depth := if inOpen then depth - 1 else depth
  if depth < 0 then [] else [.notXml ctx depth false]

def lexXmlName (p pmin : Nat) (name : List Char) : Option (List Frame) :=
  if p + 1 ≠ pmin then none
  else some [.notXml ⟨'<' :: name, ['<', '/'] ++ name ++ ['>']⟩ 0 (name ≠ [])]

/-- The rules of a function, but for its `eof` rule and its last one. -/
def rules : Frame → List Rule
  | skipHeader => [
    on (chars (codes [(0xfeff, 0xfeff)])) [.skipHeader],
    on (.seq (lit "#!") toLineEnd) [.skipHeader],
    done .eps]
  | token => tokenRules
  | comment => [
    onNewline lineEnd [.comment],
    done (lit "*/"),
    on (char '*') [.comment],
    on (plus (compl ['*', '\n', '\r'])) [.comment]]
  | string => [
    onNewline lineEnd [.string],
    on (lit "\\\"") [.string],
    on (lit "\\\\") [.string],
    on (char '\\') [.string],
    done (char '"'),
    on (plus (compl ['"', '\\', '\r', '\n'])) [.string]]
  | string2 => [
    onNewline lineEnd [.string2],
    on (char '\\') [.string2],
    on (lit "\\\\") [.string2],
    on (lit "\\'") [.string2],
    done (char '\''),
    on (alts [lit "$$", lit "\\$", char '$']) [.string2],
    on (lit "$\x7b") [.codeString 0, .string2],
    on (plus (compl ['\'', '\\', '\r', '\n', '$'])) [.string2]]
  | codeString openBraces => [
    onNewline lineEnd [.codeString openBraces],
    on (char '\x7b') [.codeString (openBraces + 1)],
    on (char '/') [.codeString openBraces],
    on (char '\x7d') (if openBraces > 0 then [.codeString (openBraces - 1)] else []),
    on (char '"') [.string, .codeString openBraces],
    on (char '\'') [.string2, .codeString openBraces],
    on (lit "/*") [.comment, .codeString openBraces],
    on (.seq (lit "//") toLineEnd) [.codeString openBraces],
    on (plus (compl ['/', '"', '\'', '\x7b', '\x7d', '\n', '\r'])) [.codeString openBraces]]
  | regexp => [
    refuse lineChar,
    on (lit "\\/") [.regexp],
    on (lit "\\r") [.regexp],
    on (lit "\\n") [.regexp],
    on (lit "\\t") [.regexp],
    on (.seq (char '\\') (alts [char '\\', char '$', char '.', char '*', char '+', char '^', char '|', char '\x7b',
      char '\x7d', char '[', char ']', char '(', char ')', char '?', char '-', digit])) [.regexp],
    on (.seq (char '\\') (alts [char 'w', char 'W', char 'b', char 'B', char 's', char 'S', char 'd', char 'D', char 'x']))
      [.regexp],
    on (seqs [char '\\', chars [('u', 'u'), ('U', 'U')], hexDigit, hexDigit, hexDigit, hexDigit]) [.regexp],
    refuse (.seq (char '\\') (compl ['\\'])),
    on (char '/') [.regexpOptions],
    on (plus (compl ['\\', '/', '\r', '\n'])) [.regexp]]
  | regexpOptions => [
    on (alts [char 'g', char 'i', char 'm', char 's', char 'u']) [.regexpOptions],
    refuse (chars [('a', 'z')]),
    done .eps]
  | notXml ctx depth inOpen => [
    onNewline lineEnd [.notXml ctx depth inOpen],
    ⟨seqs [char '<', char '/', xmlName, char '>'], false, .goto fun _ s => some (closeTag ctx depth s)⟩,
    ⟨.seq (char '<') xmlName, false, .goto fun _ s => some (openTag ctx depth s)⟩,
    on (lit "/>") (emptyTag ctx depth inOpen),
    on (alts [char '<', char '/', char '>']) [.notXml ctx depth inOpen],
    on (plus (compl ['<', '/', '>', '\n', '\r'])) [.notXml ctx depth inOpen]]
  | sharpToken => [
    done sharpIdent,
    on blanks [.sharpToken],
    onNewline (lit "\r\n") [.sharpToken],
    onNewline lineChar [.sharpToken],
    on (lit "/*") [.comment, .sharpToken]]
  | lexXml p => [⟨xmlName, false, .goto (lexXmlName p)⟩]

/-- The `eof` rule. -/
def eof : Frame → Option Action
  | skipHeader | token => some (.goto fun _ _ => some [])
  | comment | string | string2 | codeString _ | regexp | notXml .. => some .raise
  | regexpOptions | sharpToken | lexXml _ => none

/-- The last rule, which consumes nothing. -/
def other : Frame → Action
  | sharpToken => .goto fun _ _ => some [.token]
  | _ => .raise

end Frame

/-! ## Runs -/

structure State where
  rest : List Char
  pos : Nat
  file : LexerFile
  stack : List Frame
  deriving DecidableEq

namespace State

/-- The call on top has matched `m` characters; `stack` is what lies below it. -/
def act (s : State) (stack : List Frame) (m : Nat) (newline : Bool) (action : Action) : Option State :=
  (action.run s.pos (s.rest.take m)).map fun next =>
    { rest := s.rest.drop m, pos := s.pos + m, stack := next ++ stack,
      file := if newline then s.file.newline (s.pos + m) else s.file }

/-- One match of the call on top. No state means an error, or no call. -/
def step (s : State) : Option State :=
  match s.stack with
  | [] => none
  | f :: stack =>
    match (if s.rest = [] then f.eof else none) with
    | some action => s.act stack 0 false action
    | none =>
      match longest (f.rules.map (·.pattern)) s.rest with
      | none => s.act stack 0 false f.other
      | some (i, m) => (f.rules[i]?).bind fun r => s.act stack m r.newline r.action

/-- The functions that the parser calls. -/
def Called (f : Frame) : Prop := f = .token ∨ f = .sharpToken ∨ ∃ p, f = .lexXml p

/-- The states while `text` is tokenised, with any choice of the calls. -/
inductive Reached (text : List Char) : State → Prop
  | skipHeader : Reached text ⟨text, 0, .makeFile, [.skipHeader]⟩
  | call {s : State} {f : Frame} : Reached text s → s.stack = [] → Called f → Reached text { s with stack := [f] }
  | step {s s' : State} : Reached text s → s.step = some s' → Reached text s'

end State

/-! ## `resolve_pos` -/

namespace LexerFile

/-- The loop of `resolve_pos` over the bytes of the file, at position `p` with `skip` more bytes of the last character to
read. Nothing is recorded for a carriage return that ends the file. -/
def resolveLoop (p : Nat) (f : LexerFile) : Nat → List UInt8 → LexerFile
  | _, [] => f
  | skip + 1, _ :: ch => resolveLoop p f skip ch
  | 0, c :: ch =>
    if c = 0x0A then resolveLoop (p + 1) (f.newline (p + 1)) 0 ch
    else if c = 0x0D then
      match ch with
      | [] => f
      | _ :: ch => resolveLoop (p + 2) (f.newline (p + 2)) 0 ch
    else resolveLoop (p + 1) f (if c < 0xC0 then 0 else if c < 0xE0 then 1 else if c < 0xF0 then 2 else 3) ch

/-- `resolve_pos` on a file in UTF-8. -/
def resolvePos (text : List Char) : LexerFile := resolveLoop 0 makeFile 0 (text.flatMap String.utf8EncodeChar)

end LexerFile

/-! The line table of the lexer and the one of `resolve_pos`. Each call of the lexer records the line ends that it consumes,
so that the table only depends on the text; `resolve_pos` reads one more byte behind every carriage return, whatever it is. -/

/-- Where the lines of a text end that stands at `p`. A carriage return and a line feed end one line together. -/
def lineEnds (p : Nat) : List Char → List Nat
  | [] => []
  | c :: cs =>
    if c = '\n' ∨ (c = '\r' ∧ cs.head? ≠ some '\n') then (p + 1) :: lineEnds (p + 1) cs else lineEnds (p + 1) cs

/-- Every carriage return is followed by a line feed. -/
def OnlyPairedReturns (text : List Char) : Prop := ∀ i : Nat, text[i]? = some '\r' → text[i + 1]? = some '\n'

theorem onlyPairedReturns_nil : OnlyPairedReturns [] := fun _ h => absurd h (by simp)

theorem onlyPairedReturns_cons (c : Char) (cs : List Char) :
    OnlyPairedReturns (c :: cs) ↔ (c = '\r' → cs.head? = some '\n') ∧ OnlyPairedReturns cs := by
  constructor
  · intro h
    refine ⟨fun hc => ?_, fun i hi => h (i + 1) hi⟩
    rw [List.head?_eq_getElem?]
    exact h 0 (congrArg some hc)
  · rintro ⟨hhead, htail⟩ (_ | i) hi
    · rw [List.head?_eq_getElem?] at hhead
      exact hhead (Option.some.inj hi)
    · exact htail i hi

/-! ## The bytes of a character -/

namespace LexerFile

theorem resolveLoop_skip (p : Nat) (f : LexerFile) : ∀ (bs ch : List UInt8),
    resolveLoop p f bs.length (bs ++ ch) = resolveLoop p f 0 ch
  | [], _ => rfl
  | _ :: bs, ch => resolveLoop_skip p f bs ch

theorem resolveLoop_first {p : Nat} {f : LexerFile} {c : UInt8} {bs ch : List UInt8} (hn : c ≠ 0x0A) (hr : c ≠ 0x0D)
    (hlen : (if c < 0xC0 then 0 else if c < 0xE0 then 1 else if c < 0xF0 then 2 else 3) = bs.length) :
    resolveLoop p f 0 (c :: (bs ++ ch)) = resolveLoop (p + 1) f 0 ch := by
  rw [resolveLoop.eq_def]
  simp only
  rw [if_neg hn, if_neg hr, hlen, resolveLoop_skip]

/-- A character that ends no line counts for one position. -/
theorem resolveLoop_char (p : Nat) (f : LexerFile) {c : Char} (ch : List UInt8) (hn : c ≠ '\n') (hr : c ≠ '\r') :
    resolveLoop p f 0 (String.utf8EncodeChar c ++ ch) = resolveLoop (p + 1) f 0 ch := by
  have hne : ∀ d : Char, c ≠ d → c.val.toNat ≠ d.val.toNat := fun d h hv =>
    h (Char.ext (UInt32.toNat_inj.1 hv))
  have hn' : c.val.toNat ≠ 10 := hne '\n' hn
  have hr' : c.val.toNat ≠ 13 := hne '\r' hr
  have hbyte : ∀ {n : Nat}, n < 256 → (UInt8.ofNat n).toNat = n := fun h => Nat.mod_eq_of_lt h
  generalize hv : c.val.toNat = v at hn' hr'
  have hbelow : ∀ {n : Nat} (b : UInt8), n < 256 → (UInt8.ofNat n < b ↔ n < b.toNat) := fun b h => by
    rw [UInt8.lt_iff_toNat_lt, hbyte h]
  have hother : ∀ {n : Nat} (b : UInt8), n < 256 → n ≠ b.toNat → UInt8.ofNat n ≠ b := fun b h hne heq =>
    hne (by rw [← heq, hbyte h])
  unfold String.utf8EncodeChar
  simp only [hv]
  split
  · have hlt : v < 256 := by omega
    refine resolveLoop_first (hother _ hlt hn') (hother _ hlt hr') ?_
    rw [if_pos ((hbelow 0xC0 hlt).2 (show v < 192 by omega))]
    rfl
  split
  · have hlt : v / 64 % 32 + 192 < 256 := by omega
    refine resolveLoop_first (hother _ hlt (show _ ≠ 10 by omega)) (hother _ hlt (show _ ≠ 13 by omega)) ?_
    rw [if_neg (mt (hbelow 0xC0 hlt).1 (show ¬_ < 192 by omega)), if_pos ((hbelow 0xE0 hlt).2 (show _ < 224 by omega))]
    rfl
  split
  · have hlt : v / 4096 % 16 + 224 < 256 := by omega
    refine resolveLoop_first (hother _ hlt (show _ ≠ 10 by omega)) (hother _ hlt (show _ ≠ 13 by omega)) ?_
    rw [if_neg (mt (hbelow 0xC0 hlt).1 (show ¬_ < 192 by omega)), if_neg (mt (hbelow 0xE0 hlt).1 (show ¬_ < 224 by omega)),
      if_pos ((hbelow 0xF0 hlt).2 (show _ < 240 by omega))]
    rfl
  · have hlt : v / 262144 % 8 + 240 < 256 := by omega
    refine resolveLoop_first (hother _ hlt (show _ ≠ 10 by omega)) (hother _ hlt (show _ ≠ 13 by omega)) ?_
    rw [if_neg (mt (hbelow 0xC0 hlt).1 (show ¬_ < 192 by omega)), if_neg (mt (hbelow 0xE0 hlt).1 (show ¬_ < 224 by omega)),
      if_neg (mt (hbelow 0xF0 hlt).1 (show ¬_ < 240 by omega))]
    rfl

theorem utf8_newline : String.utf8EncodeChar '\n' = [0x0A] := by decide

theorem utf8_return : String.utf8EncodeChar '\r' = [0x0D] := by decide

/-! ## The table that `resolve_pos` makes -/

theorem resolveLoop_newline (p : Nat) (f : LexerFile) (ch : List UInt8) :
    resolveLoop p f 0 (0x0A :: ch) = resolveLoop (p + 1) (f.newline (p + 1)) 0 ch := by
  rw [resolveLoop.eq_def]
  exact if_pos rfl

theorem resolveLoop_return (p : Nat) (f : LexerFile) (c : UInt8) (ch : List UInt8) :
    resolveLoop p f 0 (0x0D :: c :: ch) = resolveLoop (p + 2) (f.newline (p + 2)) 0 ch := rfl

theorem llines_newline (f : LexerFile) (n : Nat) : (f.newline n).llines = (n, wrap (f.lline + 1)) :: f.llines := rfl

theorem resolveLoop_llines : ∀ (skip p : Nat) (f : LexerFile) (ch : List UInt8),
    ∃ later, (resolveLoop p f skip ch).llines = later ++ f.llines
  | _, _, _, [] => ⟨[], rfl⟩
  | _ + 1, p, f, _ :: ch => resolveLoop_llines _ p f ch
  | 0, p, f, c :: ch => by
    rw [resolveLoop.eq_def]
    simp only
    split
    · obtain ⟨later, h⟩ := resolveLoop_llines 0 (p + 1) (f.newline (p + 1)) ch
      exact ⟨later ++ [(p + 1, _)], by rw [h, llines_newline, List.append_assoc]; rfl⟩
    split
    · cases ch with
      | nil => exact ⟨[], rfl⟩
      | cons d ch =>
        obtain ⟨later, h⟩ := resolveLoop_llines 0 (p + 2) (f.newline (p + 2)) ch
        exact ⟨later ++ [(p + 2, _)], by rw [h, llines_newline, List.append_assoc]; rfl⟩
    · exact resolveLoop_llines _ (p + 1) f ch

theorem newlines_llines (ends : List Nat) (f : LexerFile) : ∃ later, (ends.foldl newline f).llines = later ++ f.llines := by
  induction ends generalizing f with
  | nil => exact ⟨[], rfl⟩
  | cons n ends ih =>
    obtain ⟨later, h⟩ := ih (f.newline n)
    exact ⟨later ++ [(n, _)], by rw [List.foldl_cons, h, llines_newline, List.append_assoc]; rfl⟩

/-- A carriage return at `p` without its line feed: the tables differ from there on. -/
theorem llines_ne_of_return {p : Nat} {f : LexerFile} {ch : List UInt8} {ends : List Nat} :
    (resolveLoop p f 0 (0x0D :: ch)).llines ≠ (((p + 1) :: ends).foldl newline f).llines := by
  obtain ⟨later, hlexer⟩ := newlines_llines ends (f.newline (p + 1))
  rw [List.foldl_cons, hlexer, llines_newline]
  cases ch with
  | nil =>
    intro h
    have hlen : f.llines.length = _ := congrArg List.length h
    rw [List.length_append, List.length_cons] at hlen
    omega
  | cons d ch =>
    obtain ⟨later', hresolve⟩ := resolveLoop_llines 0 (p + 2) (f.newline (p + 2)) ch
    intro h
    rw [resolveLoop_return, hresolve, llines_newline] at h
    have hend := (List.append_inj' h rfl).2
    rw [List.cons.injEq, Prod.mk.injEq] at hend
    exact absurd hend.1.1 (by omega)

/-- On a text from `p` on. -/
theorem resolveLoop_eq_newlines_iff : ∀ (text : List Char) (p : Nat) (f : LexerFile),
    (resolveLoop p f 0 (text.flatMap String.utf8EncodeChar)).llines = ((lineEnds p text).foldl newline f).llines ↔
      OnlyPairedReturns text
  | [], _, _ => iff_of_true rfl onlyPairedReturns_nil
  | c :: cs, p, f => by
    rw [List.flatMap_cons, onlyPairedReturns_cons, lineEnds]
    by_cases hn : c = '\n'
    · subst hn
      rw [if_pos (Or.inl rfl), utf8_newline, List.singleton_append, resolveLoop_newline]
      have hreturn : '\n' = '\r' → cs.head? = some '\n' := fun hc => absurd hc (by decide)
      exact (resolveLoop_eq_newlines_iff cs (p + 1) (f.newline (p + 1))).trans ⟨fun h => ⟨hreturn, h⟩, And.right⟩
    by_cases hr : c = '\r'
    · subst hr
      by_cases hhead : cs.head? = some '\n'
      · obtain ⟨ds, rfl⟩ : ∃ ds, cs = '\n' :: ds := by
          cases cs with
          | nil => cases hhead
          | cons d ds => exact ⟨ds, by rw [Option.some.inj hhead]⟩
        rw [if_neg (by simp), lineEnds, if_pos (Or.inl rfl), onlyPairedReturns_cons, List.flatMap_cons, utf8_return,
          utf8_newline, List.singleton_append, List.singleton_append, resolveLoop_return]
        have hreturn : '\n' = '\r' → ds.head? = some '\n' := fun hc => absurd hc (by decide)
        exact (resolveLoop_eq_newlines_iff ds (p + 2) (f.newline (p + 2))).trans
          ⟨fun h => ⟨fun _ => rfl, hreturn, h⟩, fun h => h.2.2⟩
      · rw [if_pos (Or.inr ⟨rfl, hhead⟩), utf8_return]
        exact iff_of_false llines_ne_of_return fun h => hhead (h.1 rfl)
    · rw [if_neg (by simp [hn, hr]), resolveLoop_char p f _ hn hr]
      exact (resolveLoop_eq_newlines_iff cs (p + 1) f).trans ⟨fun h => ⟨fun hc => absurd hc hr, h⟩, And.right⟩

end LexerFile

/-! ## The table that the lexer makes -/

theorem lineEnds_append_plain : ∀ {w : List Char} (p : Nat) (cs : List Char), '\n' ∉ w → '\r' ∉ w →
    lineEnds p (w ++ cs) = lineEnds (p + w.length) cs
  | [], _, _, _, _ => rfl
  | c :: w, p, cs, hn, hr => by
    rw [List.mem_cons, not_or] at hn hr
    rw [List.cons_append, lineEnds, if_neg (by rintro (h | ⟨h, _⟩); exacts [hn.1 h.symm, hr.1 h.symm]),
      lineEnds_append_plain (p + 1) cs hn.2 hr.2, List.length_cons]
    congr 1
    omega

def newlinePatterns : List Regex := [lit "\r\n", lineChar, lineEnd]

/-- What a rule may match without losing track of the lines: it counts one if it matches the end of a line, and none if
it matches no part of one. -/
def Rule.keepsLines (r : Rule) : Bool :=
  match r.action with
  | .raise => true
  | .goto _ => if r.newline then decide (r.pattern ∈ newlinePatterns) else r.pattern.avoids '\n' && r.pattern.avoids '\r'

def Frame.keepsLines (f : Frame) : Bool :=
  f.rules.all Rule.keepsLines && (!f.rules.any (·.newline) || f.rules.any (·.pattern.accepts ['\r', '\n']))

/-- Every function of the lexer keeps track, and if it counts lines it also matches a line feed behind its carriage return. -/
theorem Frame.keepsLines_all (f : Frame) : f.keepsLines = true := by
  cases f with
  | skipHeader => decide
  | token => decide +kernel
  | comment => decide
  | string => decide
  | string2 => decide
  | codeString openBraces => rfl
  | regexp => decide
  | regexpOptions => decide
  | notXml ctx depth inOpen => rfl
  | sharpToken => decide
  | lexXml p => rfl

theorem accepts_newlinePattern {p : Regex} {w : List Char} (hp : p ∈ newlinePatterns) (hw : p.accepts w = true) :
    w = ['\r', '\n'] ∨ w = ['\n'] ∨ w = ['\r'] := by
  simp only [newlinePatterns, List.mem_cons, List.not_mem_nil, or_false] at hp
  rcases hp with rfl | rfl | rfl
  · exact Or.inl ((accepts_lit _ _).1 hw)
  · simp only [lineChar, accepts_alts, List.any_cons, List.any_nil, Bool.or_false, Bool.or_eq_true, accepts_char] at hw
    exact Or.inr hw
  · simp only [lineEnd, accepts_alts, List.any_cons, List.any_nil, Bool.or_false, Bool.or_eq_true, accepts_char,
      accepts_lit] at hw
    rcases hw with h | h | h
    · exact Or.inr (Or.inl h)
    · exact Or.inr (Or.inr h)
    · exact Or.inl h

/-- A lexeme contains one end of a line if its rule counts one, and none otherwise. -/
theorem lineEnds_lexeme {f : Frame} {r : Rule} {text : List Char} {m : Nat} (p : Nat) (hr : r ∈ f.rules)
    (hgoto : r.action ≠ .raise) (hm : m ≤ text.length) (hacc : r.pattern.accepts (text.take m) = true)
    (hlongest : ∀ k ≤ text.length, m < k → ∀ r ∈ f.rules, r.pattern.accepts (text.take k) = false) :
    lineEnds p text = if r.newline then (p + m) :: lineEnds (p + m) (text.drop m) else lineEnds (p + m) (text.drop m) := by
  obtain ⟨hrules, hpair⟩ := Bool.and_eq_true_iff.1 f.keepsLines_all
  have hkeeps := List.all_eq_true.1 hrules r hr
  have hlen : (text.take m).length = m := List.length_take_of_le hm
  have hsplit : text.take m ++ text.drop m = text := List.take_append_drop m text
  unfold Rule.keepsLines at hkeeps
  cases haction : r.action with
  | raise => exact absurd haction hgoto
  | goto next =>
    rw [haction] at hkeeps
    cases hnewline : r.newline with
    | false =>
      simp only [hnewline, Bool.false_eq_true, if_false, Bool.and_eq_true] at hkeeps ⊢
      have hn := not_mem_of_accepts hkeeps.1 hacc
      have hr := not_mem_of_accepts hkeeps.2 hacc
      have happend := lineEnds_append_plain p (text.drop m) hn hr
      rw [hsplit, hlen] at happend
      exact happend
    | true =>
      simp only [hnewline, if_true, decide_eq_true_eq] at hkeeps ⊢
      generalize hrest : text.drop m = rest at hsplit
      rcases accepts_newlinePattern hkeeps hacc with h | h | h <;> rw [h] at hsplit hlen <;> subst hlen <;> subst hsplit
      · rfl
      · rfl
      · -- with a line feed behind the carriage return, the longer match would have been taken
        have hhead : rest.head? ≠ some '\n' := by
          intro hhead
          obtain ⟨cs, rfl⟩ : ∃ cs, rest = '\n' :: cs := by
            cases rest with
            | nil => cases hhead
            | cons d ds => exact ⟨ds, by rw [Option.some.inj hhead]⟩
          rw [List.any_eq_true.2 ⟨r, hr, hnewline⟩, Bool.not_true, Bool.false_or] at hpair
          obtain ⟨r', hr', hacc'⟩ := List.any_eq_true.1 hpair
          have hno := hlongest 2 (by simp) (by simp) r' hr'
          rw [show (['\r'] ++ '\n' :: cs).take 2 = ['\r', '\n'] from rfl, hacc'] at hno
          cases hno
        rw [List.singleton_append, lineEnds, if_pos (Or.inr ⟨rfl, hhead⟩)]
        rfl

namespace State

/-- The table of the lexer once it has read the rest. -/
def fileAtEnd (s : State) : LexerFile := (lineEnds s.pos s.rest).foldl .newline s.file

theorem act_fileAtEnd {s s' : State} {stack : List Frame} {m : Nat} {newline : Bool} {action : Action}
    (h : s.act stack m newline action = some s')
    (hends : action ≠ .raise → lineEnds s.pos s.rest =
      if newline then (s.pos + m) :: lineEnds (s.pos + m) (s.rest.drop m) else lineEnds (s.pos + m) (s.rest.drop m)) :
    s'.fileAtEnd = s.fileAtEnd := by
  unfold act at h
  rw [Option.map_eq_some_iff] at h
  obtain ⟨next, hnext, rfl⟩ := h
  have hgoto : action ≠ .raise := by
    rintro rfl
    cases hnext
  unfold fileAtEnd
  rw [hends hgoto]
  cases newline with
  | false => rfl
  | true => rfl

/-- A step consumes a line's end exactly if it records it. -/
theorem step_fileAtEnd {s s' : State} (h : s.step = some s') : s'.fileAtEnd = s.fileAtEnd := by
  unfold step at h
  cases hstack : s.stack with
  | nil =>
    rw [hstack] at h
    cases h
  | cons f stack =>
    simp only [hstack] at h
    split at h
    · exact act_fileAtEnd h fun _ => rfl
    split at h
    · exact act_fileAtEnd h fun _ => rfl
    · rename_i i m hlongest
      obtain ⟨hm, ⟨p, hp, hacc⟩, hno⟩ := longest_spec hlongest
      rw [List.getElem?_map, Option.map_eq_some_iff] at hp
      obtain ⟨r, hr, rfl⟩ := hp
      rw [hr, Option.bind_some] at h
      exact act_fileAtEnd h fun hgoto => lineEnds_lexeme s.pos (List.mem_of_getElem? hr) hgoto hm hacc
        fun k hk hlt r' hr' => hno k hk hlt r'.pattern (List.mem_map_of_mem hr')

/-- Whatever the calls, the lexer records the ends of the lines. -/
theorem Reached.fileAtEnd_eq {text : List Char} {s : State} (h : Reached text s) :
    s.fileAtEnd = (lineEnds 0 text).foldl .newline .makeFile := by
  induction h with
  | skipHeader => rfl
  | call _ _ _ ih => exact ih
  | step _ hstep ih => rw [step_fileAtEnd hstep, ih]

/-- When the lexer has read the whole text, the table that it has made is the one of `resolve_pos` exactly if every
carriage return of the text is followed by a line feed. -/
theorem resolvePos_eq_lexed_iff {text : List Char} {s : State} (h : Reached text s) (hend : s.rest = []) :
    (LexerFile.resolvePos text).llines = s.file.llines ↔ OnlyPairedReturns text := by
  have hfile : s.file = (lineEnds 0 text).foldl .newline .makeFile := by
    rw [← h.fileAtEnd_eq, fileAtEnd, hend]
    rfl
  rw [hfile]
  exact LexerFile.resolveLoop_eq_newlines_iff text 0 .makeFile

/-- The end of a line in a comment, and another one behind it. -/
theorem resolvePos_comment :
    (LexerFile.resolvePos ['/', '*', '\n', '*', '/', '\r', '\n']).llines = [(7, 3), (3, 2), (0, 1)] := by
  have start : Reached ['/', '*', '\n', '*', '/', '\r', '\n'] _ := .skipHeader
  have token : Reached _ ⟨_, 0, _, [.token]⟩ := .call (start.step (by rfl)) rfl (.inl rfl)
  have comment : Reached _ ⟨['\n', '*', '/', '\r', '\n'], 2, _, [.comment]⟩ := token.step (by rfl)
  have line : Reached _ ⟨['*', '/', '\r', '\n'], 3, _, [.comment]⟩ := comment.step (by rfl)
  have token : Reached _ ⟨['\r', '\n'], 5, _, [.token]⟩ := .call (line.step (by rfl)) rfl (.inl rfl)
  have done : Reached _ ⟨[], 7, ⟨3, 1, [(7, 3), (3, 2), (0, 1)], _, _, _⟩, [.token]⟩ := token.step (by rfl)
  refine (resolvePos_eq_lexed_iff done rfl).2 ?_
  simp [onlyPairedReturns_cons, onlyPairedReturns_nil]

/-- A carriage return of its own: the lexer begins the line behind it, `resolve_pos` one character later. -/
theorem resolvePos_loneReturn : ¬ ∀ (text : List Char) (s : State), Reached text s → s.rest = [] →
    (LexerFile.resolvePos text).llines = s.file.llines := by
  intro h
  have start : Reached ['\r', 'x'] _ := .skipHeader
  have token : Reached _ ⟨_, 0, _, [.token]⟩ := .call (start.step (by rfl)) rfl (.inl rfl)
  have line : Reached _ ⟨['x'], 1, _, [.token]⟩ := token.step (by rfl)
  have done : Reached _ ⟨[], 2, ⟨2, 1, [(1, 2), (0, 1)], _, _, _⟩, []⟩ := line.step (by rfl)
  exact absurd (h _ _ done rfl) (by decide)

end State

end EvilHaxe.Lexer
