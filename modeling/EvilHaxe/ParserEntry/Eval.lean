/-
The conditions of `#if` and `#elseif`: `semver.ml`, the evaluator of `parserEntry.ml`, and its
`condition_handler`, which keeps the conditions under which the current token is live.

Floats are a parameter. The positions that errors carry are left out.
-/
import EvilHaxe.Syntax.Parser
import Mathlib.Algebra.Ring.Nat
import Mathlib.Algebra.Ring.Int.Defs

namespace EvilHaxe.ParserEntry

open EvilHaxe.Syntax

/-! ## Numbers -/

def digitValue (c : Char) : Option Nat :=
  if '0' ≤ c ∧ c ≤ '9' then some (c.toNat - '0'.toNat)
  else if 'a' ≤ c ∧ c ≤ 'f' then some (c.toNat - 'a'.toNat + 10)
  else if 'A' ≤ c ∧ c ≤ 'F' then some (c.toNat - 'A'.toNat + 10)
  else none

def digitBelow (base : Nat) (c : Char) : Option Nat := (digitValue c).filter (· < base)

/-- Digits after the first one; underscores between them are skipped. -/
def digits (base : Nat) : Nat → List Char → Option Nat
  | acc, [] => some acc
  | acc, c :: cs => if c = '_' then digits base acc cs else do digits base (base * acc + (← digitBelow base c)) cs

def natOfChars (base : Nat) : List Char → Option Nat
  | [] => none
  | c :: cs => do digits base (← digitBelow base c) cs

/-- `int_of_string`, for integers of 63 bits: a decimal number has to fit, one with a base wraps. -/
def intOfString (s : String) : Option Int :=
  let (neg, cs) := match s.toList with
    | '-' :: cs => (true, cs)
    | '+' :: cs => (false, cs)
    | cs => (false, cs)
  let wrapped (base : Nat) (cs : List Char) := do
    let n ← natOfChars base cs
    if n < 2 ^ 63 then some ((if neg then -(n : Int) else n).bmod (2 ^ 63)) else none
  match cs with
  | '0' :: 'x' :: cs | '0' :: 'X' :: cs => wrapped 16 cs
  | '0' :: 'o' :: cs | '0' :: 'O' :: cs => wrapped 8 cs
  | '0' :: 'b' :: cs | '0' :: 'B' :: cs => wrapped 2 cs
  | '0' :: 'u' :: cs | '0' :: 'U' :: cs => wrapped 10 cs
  | cs => do
    let n ← natOfChars 10 cs
    if neg then (if n ≤ 2 ^ 62 then some (-(n : Int)) else none)
    else (if n < 2 ^ 62 then some (n : Int) else none)

/-- The float operations of the language. -/
structure Floats where
  float : Type
  ofString : String → Option float
  toString : float → String
  compare : float → float → Ordering
  isZero : float → Bool

/-! ## `Semver` -/

inductive SemPart where
  | svNum (n : Int)
  | svStr (s : String)
  deriving DecidableEq, Repr

/-- Major, minor and patch, and the parts of a pre-release. -/
structure SemVersion where
  major : SemPart
  minor : SemPart
  patch : SemPart
  pre : Option (List SemPart)
  deriving DecidableEq, Repr

def SemPart.toString : SemPart → String
  | .svNum n => ToString.toString n
  | .svStr s => s

/-- `Semver.to_string`. -/
def SemVersion.toString (v : SemVersion) : String :=
  ".".intercalate ([v.major, v.minor, v.patch].map SemPart.toString) ++
    match v.pre with
    | none => ""
    | some pre => "-" ++ ".".intercalate (pre.map SemPart.toString)

/-- The local `parse` of `Semver.parse_version`. -/
def parseParts (dottedStr : String) : List SemPart :=
  (if dottedStr = "" then [] else dottedStr.splitOn ".").map fun s =>
    match intOfString s with
    | some n => .svNum n
    | none => .svStr s

/-- `Semver.parse_version`; the error is the text of its `Invalid_argument`. -/
def parseVersion (s : String) : Except String SemVersion :=
  let error := .error ("Invalid version string \"" ++ s ++ "\". Should follow SemVer.")
  let parseRelease (dottedStr : String) (pre : Option (List SemPart)) : Except String SemVersion :=
    match parseParts dottedStr with
    | [.svNum major, .svNum minor, .svNum patch] => .ok ⟨.svNum major, .svNum minor, .svNum patch, pre⟩
    | _ => error
  match s.toList.span (· ≠ '-') with
  | (_, []) => parseRelease s none
  | (_, [_]) => error
  | (release, _ :: pre) =>
    -- what follows a plus sign is build metadata
    parseRelease (String.ofList release) (some (parseParts (String.ofList (pre.takeWhile (· ≠ '+')))))

def compareParts : SemPart → SemPart → Ordering
  | .svNum n1, .svNum n2 => compare n1 n2
  | .svStr s1, .svStr s2 => compare s1 s2
  | .svStr _, .svNum _ => .gt
  | .svNum _, .svStr _ => .lt

def compareLists : List SemPart → List SemPart → Ordering
  | [], [] => .eq
  | [], _ => .lt
  | _, [] => .gt
  | v1 :: rest1, v2 :: rest2 => (compareParts v1 v2).then (compareLists rest1 rest2)

/-- `Semver.compare_version`. -/
def compareVersion (a b : SemVersion) : Ordering :=
  (compareLists [a.major, a.minor, a.patch] [b.major, b.minor, b.patch]).then
    (match a.pre, b.pre with
    | none, none => .eq
    | none, _ => .gt
    | _, none => .lt
    | some pre1, some pre2 => compareLists pre1 pre2)

/-! ## `eval` -/

/-- The defines of a compilation. The compiler defines `true` before anything else, and no flag of the
command line may take it away. -/
structure DefineEnv where
  values : String → Option String
  hasTrue : (values "true").isSome

/-- `small_type`. -/
inductive SmallType (Fl : Floats) where
  | tNull
  | tBool (b : Bool)
  | tFloat (f : Fl.float)
  | tString (s : String)
  | tVersion (v : SemVersion)

section

variable {Fl : Floats}

/-- `is_true`. -/
def isTrue : SmallType Fl → Bool
  | .tBool false | .tNull => false
  | .tFloat f => !Fl.isZero f
  | _ => true

/-- `s_value`. -/
def sValue : SmallType Fl → String
  | .tNull => "null"
  | .tBool b => "boolean " ++ toString b
  | .tFloat f => "float " ++ Fl.toString f
  | .tString s => "string \"" ++ s ++ "\""
  | .tVersion v => "version " ++ v.toString

def customError {α : Type} (msg : String) : Except Exc α := .error (.error (.custom msg))

/-- `parse_version` of `parserEntry.ml`. -/
def parseVersionValue (s : String) : Except Exc (SmallType Fl) :=
  match parseVersion s with
  | .ok v => .ok (.tVersion v)
  | .error msg => customError msg

/-- `float_of_string`, with the `Failure` it raises. -/
def floatOfString (s : String) : Except Exc (SmallType Fl) :=
  match Fl.ofString s with
  | some f => .ok (.tFloat f)
  | none => .error (.ocamlFailure "float_of_string")

/-- `cmp`: `none` where it raises `Exit`, an error where it raises `Invalid_argument`. -/
def cmp (v1 v2 : SmallType Fl) : Except String (Option Ordering) :=
  let cannotCompare := .error ("Cannot compare " ++ sValue v1 ++ " and " ++ sValue v2)
  match v1, v2 with
  | .tNull, _ | _, .tNull => .ok none
  | .tFloat a, .tFloat b => .ok (some (Fl.compare a b))
  | .tString a, .tString b => .ok (some (compare a b))
  | .tBool a, .tBool b => .ok (some (compare a b))
  | .tVersion a, .tVersion b => .ok (some (compareVersion a b))
  | .tString _, .tFloat _ | .tFloat _, .tString _ => cannotCompare
  | _, .tVersion _ | .tVersion _, _ => cannotCompare
  | _, _ => .ok none

/-- The local `compare` of `eval`. -/
def evalCompare (op : Ordering → Bool) (v1 v2 : SmallType Fl) : Except Exc (SmallType Fl) :=
  match cmp v1 v2 with
  | .ok (some o) => .ok (.tBool (op o))
  | .ok none => .ok (.tBool false)
  | .error msg => customError msg

/-- `eval_binop_exprs`, after its operands are evaluated. -/
def evalBinopExprs : SmallType Fl → SmallType Fl → Except Exc (SmallType Fl × SmallType Fl)
  | .tString s1, .tFloat f2 =>
    match Fl.ofString s1 with
    | some f1 => .ok (.tFloat f1, .tFloat f2)
    | none => .ok (.tString s1, .tFloat f2)
  | .tFloat f1, .tString s2 =>
    match Fl.ofString s2 with
    | some f2 => .ok (.tFloat f1, .tFloat f2)
    | none => .ok (.tFloat f1, .tString s2)
  | .tVersion v1, .tString s => do .ok (.tVersion v1, ← parseVersionValue s)
  | .tString s, .tVersion v2 => do .ok (← parseVersionValue s, .tVersion v2)
  | v1, v2 => .ok (v1, v2)

/-- The binary operators of `eval`. The right operand of a comparison is evaluated first. -/
def evalBinop (op : Binop) (e1 e2 : Except Exc (SmallType Fl)) : Except Exc (SmallType Fl) :=
  match op with
  | .opBoolAnd => do if isTrue (← e1) then .ok (.tBool (isTrue (← e2))) else .ok (.tBool false)
  | .opBoolOr => do if isTrue (← e1) then .ok (.tBool true) else .ok (.tBool (isTrue (← e2)))
  | op => do
    let v2 ← e2
    let v1 ← e1
    let (v1, v2) ← evalBinopExprs v1 v2
    match op with
    | .opEq => evalCompare (· == .eq) v1 v2
    | .opNotEq => do .ok (.tBool !(isTrue (← evalCompare (· == .eq) v1 v2)))
    | .opGt => evalCompare (· == .gt) v1 v2
    | .opGte => evalCompare (· != .lt) v1 v2
    | .opLt => evalCompare (· == .lt) v1 v2
    | .opLte => evalCompare (· != .gt) v1 v2
    | _ => customError "Unsupported operation"

/-- `string_list_of_expr_path_raise`, `none` where it raises `Exit`. -/
def stringListOfExprPath : Expr → Option (List String)
  | .eConst (.ident i) => some [i]
  | .eField e f _ => (stringListOfExprPath e).map (f :: ·)
  | _ => none

/-- The value of a define. -/
def DefineEnv.value (env : DefineEnv) (i : String) : SmallType Fl :=
  match env.values i with
  | some s => .tString s
  | none => .tNull

/-- `eval`. -/
def eval (Fl : Floats) (env : DefineEnv) : Expr → Except Exc (SmallType Fl)
  | .eConst (.ident i) => .ok (env.value i)
  | .eConst (.string s _) => .ok (.tString s)
  | .eConst (.int i _) => floatOfString i
  | .eConst (.float f _) => floatOfString f
  | .eCall (.eConst (.ident f)) [.eConst (.string s _)] =>
    if f = "version" then parseVersionValue s else customError "Invalid condition expression"
  | .eBinop op e1 e2 => evalBinop op (eval Fl env e1) (eval Fl env e2)
  | .eUnop .not _ e => do .ok (.tBool !(isTrue (← eval Fl env e)))
  | .eParenthesis e => eval Fl env e
  | .eField e f efk =>
    match stringListOfExprPath (.eField e f efk) with
    | some sl => .ok (env.value (".".intercalate sl.reverse))
    | none => customError "Invalid condition expression"
  | _ => customError "Invalid condition expression"

end

/-! ## `condition_handler` -/

/-- The state of a `condition_handler`. -/
structure ConditionHandler where
  conditionalExpressions : List Expr
  conditionalStack : List Expr
  depths : List Nat

namespace ConditionHandler

def init : ConditionHandler := ⟨[], [], []⟩

/-- `maybe_parent`, with `allow_and` true as in its only uses. -/
def maybeParent : Expr → Expr
  | .eBinop op e1 e2 => if op = .opBoolAnd then .eBinop op e1 e2 else .eParenthesis (.eBinop op e1 e2)
  | e => e

def negate : Expr → Expr
  | .eUnop .not _ e1 => e1
  | .eBinop .opBoolAnd e1 e2 => .eBinop .opBoolOr (negate e1) (negate e2)
  | .eBinop .opBoolOr e1 e2 => .eBinop .opBoolAnd (negate e1) (negate e2)
  | e => .eUnop .not .flagPrefix e

def conjoin (lhs rhs : Expr) : Expr := .eBinop .opBoolAnd (maybeParent lhs) (maybeParent rhs)

/-- `cond_if'`. -/
def condPush (h : ConditionHandler) (e : Expr) : ConditionHandler :=
  { h with conditionalExpressions := e :: h.conditionalExpressions,
           conditionalStack := e :: h.conditionalStack }

def condIf (h : ConditionHandler) (e : Expr) : ConditionHandler :=
  { h.condPush e with depths := 1 :: h.depths }

def condElse (h : ConditionHandler) : Except Exc ConditionHandler :=
  match h.conditionalStack with
  | e :: el => .ok { h with conditionalStack := negate e :: el }
  | [] => .error .ice

def condElseif (h : ConditionHandler) (e : Expr) : Except Exc ConditionHandler := do
  let h ← h.condElse
  match h.depths with
  | [] => .error .ice
  | depth :: depths => .ok { h.condPush e with depths := (depth + 1) :: depths }

/-- The local `loop` of `cond_end`. -/
def condEnd.loop : Nat → List Expr → Except Exc (List Expr)
  | 0, el => .ok el
  | _ + 1, [] => .error (.ocamlFailure "tl")
  | d + 1, _ :: el => loop d el

def condEnd (h : ConditionHandler) : Except Exc ConditionHandler := do
  match h.depths with
  | [] => .error .ice
  | depth :: depths =>
    .ok { h with conditionalStack := ← condEnd.loop depth h.conditionalStack, depths := depths }

/-- `get_current_condition`, of a stack. -/
def currentCondition : List Expr → Expr
  | e :: el => el.foldl conjoin e
  | [] => .eConst (.ident "true")

def getCurrentCondition (h : ConditionHandler) : Expr := currentCondition h.conditionalStack

end ConditionHandler

end EvilHaxe.ParserEntry
