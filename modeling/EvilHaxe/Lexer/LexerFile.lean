/-
The line table of a file, from `lexer.ml`: what `newline`, the `#line` directive and `find_line` do to it, and the runs
in which they alternate. Integers have 63 bits; a position is where a character stands in the file.
-/
import EvilHaxe.Lib.Bisection
import Mathlib.Algebra.Ring.Nat
import Mathlib.Algebra.Ring.Int.Defs

namespace EvilHaxe.Lexer

/-- An integer of 63 bits. -/
def wrap (n : Int) : Int := n.bmod (2 ^ 63)

def maxInt : Nat := 2 ^ 62 - 1

/-- `lexer_file`, without its name. An entry of the table is the position a line starts at and the line's number; the
latest entry comes first. -/
structure LexerFile where
  lline : Int
  lmaxline : Int
  llines : List (Nat × Int)
  lalines : Array (Nat × Int)
  llast : Nat
  llastindex : Nat
  deriving DecidableEq

namespace LexerFile

def makeFile : LexerFile where
  lline := 1
  lmaxline := 1
  llines := [(0, 1)]
  lalines := #[(0, 1)]
  llast := maxInt
  llastindex := 0

/-- `newline`, where the lexeme that ends the line ends at `lexemeEnd`. -/
def newline (cur : LexerFile) (lexemeEnd : Nat) : LexerFile :=
  let lline := wrap (cur.lline + 1)
  { cur with lline := lline, llines := (lexemeEnd, lline) :: cur.llines }

/-- `Sharp "line"` of `process_token`: the directive `#line` with the number `line`. -/
def sharpLine (cur : LexerFile) (line : Int) : LexerFile := { cur with lline := wrap (line - 1) }

/-- The rebuild of the cache in `find_line`. -/
def rebuild (f : LexerFile) : LexerFile :=
  if f.lmaxline ≠ f.lline then
    { f with lmaxline := f.lline, lalines := f.llines.reverse.toArray, llast := maxInt, llastindex := 0 }
  else f

/-- The local `loop` of `find_line`. No answer means an access out of bounds, or no end. -/
def loop (f : LexerFile) (p : Nat) : Nat → Nat → Nat → Option ((Int × Int) × LexerFile)
  | 0, _, _ => none
  | fuel + 1, min, max =>
    let med := (min + max) / 2
    match f.lalines[med]? with
    | none => none
    | some (lp, line) =>
      if med = min then some ((line, p - lp), { f with llast := p, llastindex := med })
      else if lp > p then loop f p fuel min med
      else loop f p fuel med max

/-- `find_line`, and the file as it leaves it. -/
def findLine (p : Nat) (f : LexerFile) : Option ((Int × Int) × LexerFile) :=
  let f := f.rebuild
  if p ≥ f.llast then
    match f.lalines[f.llastindex]? with
    | none => none
    | some (lp, line) =>
      let lp2 := if f.llastindex = f.lalines.size - 1 then some maxInt else f.lalines[f.llastindex + 1]?.map (·.1)
      match lp2 with
      | none => none
      | some lp2 =>
        if p ≥ lp ∧ p < lp2 then some ((line, p - lp), f) else loop f p f.lalines.size 0 f.lalines.size
  else loop f p f.lalines.size 0 f.lalines.size

/-- The same by linear search over the line list: the entry that starts last among those at or before `p`. -/
def entryAt (lines : List (Nat × Int)) (p : Nat) : Option (Int × Int) :=
  (lines.find? fun e => e.1 ≤ p).map fun e => (e.2, p - e.1)

/-! ## Runs -/

/-- Where the latest line starts. -/
def lastStart (f : LexerFile) : Nat := (f.llines.head?.map (·.1)).getD 0

/-- What happens to a file while it is lexed. The end of a line lies behind the end of the line before it, by one
character and `skip` others. -/
inductive Event where
  | newline (skip : Nat)
  | sharpLine (line : Int)
  | findLine (p : Nat)

/-- A query, with the file it is made of. -/
structure Query where
  file : LexerFile
  p : Nat

def Query.answer (q : Query) : Option (Int × Int) := (findLine q.p q.file).map (·.1)

/-- One event, and the query that it makes. -/
def step (f : LexerFile) : Event → LexerFile × Option Query
  | .newline skip => (f.newline (f.lastStart + skip + 1), none)
  | .sharpLine line => (f.sharpLine line, none)
  | .findLine p => (((findLine p f).map (·.2)).getD f, some ⟨f, p⟩)

/-- The queries of a run. -/
def queries (f : LexerFile) : List Event → List Query
  | [] => []
  | e :: es =>
    match f.step e with
    | (f, none) => queries f es
    | (f, some q) => q :: queries f es

end LexerFile

end EvilHaxe.Lexer
