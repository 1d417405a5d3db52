/-
The directives of conditional compilation as a machine. A mode says how many groups are live and which
groups of dead code are open, the innermost first; a step reads one token, with the condition after it.
The machine knows neither conditions in force nor dead blocks: it is left inside dead code when the file
ends there, at an unknown directive, or when the condition of a nested group cannot be read.
-/
import EvilHaxe.ParserEntry.Conditions
import EvilHaxe.ParserEntry.NextToken
import Mathlib.Logic.Relation

namespace EvilHaxe.ParserEntry

open EvilHaxe.Syntax

/-- The tokens that `sraw` has kept, and those of the file. -/
structure Input where
  sraw : List TokPos
  code : List TokPos

/-- How far a call of `next_token` is: `lines` directives `#line` wait for their number; for each open
group of dead code, whether an `#else` or a true `#elseif` makes the code live again. -/
structure Mode where
  groups : Nat
  lines : Nat
  dead : List Bool

/-- What a token leads to: the next one, the end of the call, or its end inside dead code. -/
inductive Next where
  | goOn (m : Mode) (i : Input)
  | stop
  | left

section

variable (cx : Context)

def Input.next (i : Input) : TokPos × Input :=
  match i.code with
  | [] => ((.eof, cx.eofPos), i)
  | t :: ts => (t, { i with code := ts })

/-- The condition that is read next, and the input after it. -/
def Input.cond (i : Input) : Option (Expr × Input) :=
  match parseMacroCond cx (i.sraw ++ i.code) with
  | .ok ((e, _), _, ts) => some (e, ⟨ts.take (ts.length - i.code.length), ts.drop (ts.length - i.code.length)⟩)
  | .error _ => none

def Mode.isDead (m : Mode) : Bool := !m.dead.isEmpty

/-- The innermost group of dead code ends. -/
def Mode.close (m : Mode) : Mode := { m with dead := m.dead.tail }

/-- An exception ends the call. -/
def Mode.raise (m : Mode) : Next := if m.isDead then .left else .stop

/-- A condition decides whether the code after it is live. -/
def Mode.enter (m : Mode) (i : Input) : Next :=
  match i.cond cx with
  | none => m.raise
  | some (e, i) =>
    match truth cx.Fl cx.env e with
    | .ok true => .goOn { m with groups := m.groups + 1 } i
    | .ok false => .goOn { m with dead := true :: m.dead } i
    | .error _ => m.raise

/-- A directive in dead code, `test` being that of the innermost group. -/
def Mode.skip (m : Mode) (test : Bool) (s : String) (i : Input) : Next :=
  if s = "end" then .goOn m.close i
  else if s = "elseif" ∧ test = false then
    match i.cond cx with
    | none => m.close.raise
    | some (_, i) => .goOn m i
  else if s = "else" ∧ test = false then .goOn m i
  else if s = "else" then .goOn { m.close with groups := m.groups + 1 } i
  else if s = "elseif" then m.close.enter cx i
  else if s = "if" then
    match i.cond cx with
    | none => .left
    | some (_, i) => .goOn { m with dead := false :: m.dead } i
  else if s = "error" ∨ s = "line" then .goOn m i
  else .left

/-- A token is delivered, to a `#line` if one waits. -/
def Mode.deliver (m : Mode) (t : TokPos) (i : Input) : Next :=
  match m.lines with
  | 0 => .stop
  | n + 1 => if lineError t.1 = none then .goOn { m with lines := n } i else .stop

/-- The live code goes on with a branch that is dead. -/
def Mode.abandon (m : Mode) : Mode := { m with groups := m.groups - 1, dead := [false] }

/-- A directive in live code. -/
def Mode.direct (m : Mode) (s : String) (t : TokPos) (i : Input) : Next :=
  if s = "end" then (if m.groups = 0 then m.deliver t i else .goOn { m with groups := m.groups - 1 } i)
  else if s = "elseif" then
    if m.groups = 0 then m.deliver t i
    else
      match i.cond cx with
      | none => .stop
      | some (_, i) => .goOn m.abandon i
  else if s = "else" then (if m.groups = 0 then m.deliver t i else .goOn m.abandon i)
  else if s = "if" then m.enter cx i
  else if s = "error" then .stop
  else if s = "line" then .goOn { m with lines := m.lines + 1 } i
  else if cx.moduleAttributes.contains s then m.deliver t i
  else .stop

/-- A step of the machine. -/
def Mode.step (m : Mode) (t : TokPos) (i : Input) : Next :=
  match m.dead with
  | test :: _ =>
    match t.1 with
    | .sharp s => m.skip cx test s i
    | .eof => .left
    | _ => .goOn m i
  | [] =>
    match t.1 with
    | .comment _ => .goOn m i
    | .commentLine _ => if commentCompletion cx t.2 then .stop else .goOn m i
    | .sharp s => m.direct cx s t i
    | _ => m.deliver t i

/-- From the mode `m`, at a token and before the rest of the input, the call ends with `n`. -/
inductive Ends (n : Next) : Mode → TokPos → Input → Prop where
  | here {m : Mode} {t : TokPos} {i : Input} : m.step cx t i = n → Ends n m t i
  | later {m m' : Mode} {t : TokPos} {i i' : Input} : m.step cx t i = .goOn m' i' →
      Ends n m' (i'.next cx).1 (i'.next cx).2 → Ends n m t i

end

end EvilHaxe.ParserEntry
