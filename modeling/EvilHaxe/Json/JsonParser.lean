/-
`haxe.format.JsonParser`, on targets with unicode strings. A text is the list of its character codes, and the parser
stands at a position with what is left of the text after it.
-/
import Mathlib.Data.List.Basic

namespace EvilHaxe.Json

abbrev Str := List Nat

/-- Values as `Dynamic` holds them. `map` is a `haxe.ds.StringMap` and `inst` an instance of a class. -/
inductive Dynamic (F : Type) where
  | null
  | bool (b : Bool)
  | int (i : Int)
  | float (f : F)
  | str (s : Str)
  | arr (items : List (Dynamic F))
  | obj (fields : List (Str × Dynamic F))
  | map (fields : List (Str × Dynamic F))
  | inst (fields : List (Str × Dynamic F))
  | date (text : Str)
  | func
  | enum (index : Nat)
  | unknown

/-- What the parser uses of the target's standard library. -/
structure Target (F : Type) where
  parseFloat : Str → F
  int : F → Int
  ofInt : Int → F
  eq : F → F → Bool
  /-- What `StringBuf.addChar` appends: one code, or a pair of surrogates where strings are UTF-16. -/
  addChar : Nat → Str
  addChar_bmp : ∀ c, c < 0x10000 → addChar c = [c]
  /-- `Std.parseInt` of a hexadecimal prefix without a digit after it is unspecified. `none` is an exception. -/
  parseIntNoDigit : Option Nat

/-- The exceptions, each with what its message prints. -/
inductive Error where
  | invalidChar (c : Option Nat) (pos : Nat)
  | invalidEscape (c : Option Nat) (pos : Nat)
  | unclosedString
  | invalidNumber (start : Nat) (text : Str)
  | parseInt
  | outOfFuel
  deriving DecidableEq

structure Input where
  pos : Nat
  rest : Str
  deriving DecidableEq

variable {F : Type}

def isSpace (c : Nat) : Bool :=
  c == ' '.toNat || c == '\r'.toNat || c == '\n'.toNat || c == '\t'.toNat

/-! ## `parseString` -/

def isHex (c : Nat) : Bool :=
  ('0'.toNat ≤ c && c ≤ '9'.toNat) || ('a'.toNat ≤ c && c ≤ 'f'.toNat) || ('A'.toNat ≤ c && c ≤ 'F'.toNat)

def hexDigit (c : Nat) : Nat :=
  if c ≤ '9'.toNat then c - '0'.toNat
  else if c ≤ 'F'.toNat then c - 'A'.toNat + 10
  else c - 'a'.toNat + 10

/-- `Std.parseInt("0x" + digits)`, which stops at the first character that is not a digit. -/
def parseHex (T : Target F) (digits : Str) : Option Nat :=
  match digits.takeWhile isHex with
  | [] => T.parseIntNoDigit
  | ds => some (ds.foldl (fun n d => n * 16 + hexDigit d) 0)

/-- The locals of `parseString`: `chunk` is the text from `start` to `pos`, and `prev` a high surrogate. -/
structure StringState where
  buf : Option Str
  chunk : Str
  prev : Option Nat

namespace StringState

def start : StringState := { buf := none, chunk := [], prev := none }

def add (st : StringState) (s : Str) : StringState := { st with buf := some (st.buf.getD [] ++ s) }

def cancelSurrogate (T : Target F) (st : StringState) : StringState := { st.add (T.addChar 0xFFFD) with prev := none }

def raw (st : StringState) (c : Nat) : StringState := { st with chunk := st.chunk ++ [c] }

/-- What a backslash does before the character after it is looked at. -/
def addSub (st : StringState) : StringState := { st.add st.chunk with chunk := [] }

/-- What the character after a backslash stands for. -/
def unescape (c : Nat) : Option Nat :=
  if c = 'r'.toNat then some '\r'.toNat
  else if c = 'n'.toNat then some '\n'.toNat
  else if c = 't'.toNat then some '\t'.toNat
  else if c = 'b'.toNat then some 8
  else if c = 'f'.toNat then some 12
  else if c = '/'.toNat ∨ c = '\\'.toNat ∨ c = '"'.toNat then some c
  else none

def cancelled (T : Target F) (st : StringState) : StringState :=
  if st.prev.isSome then st.cancelSurrogate T else st

/-- An escape of one character, which `unescape` has taken for `c`. -/
def escape (T : Target F) (st : StringState) (c : Nat) : StringState :=
  (st.addSub.cancelled T).add [c]

def unicode (T : Target F) (st : StringState) (uc : Nat) : StringState :=
  match st.prev with
  | some prev =>
    if uc < 0xDC00 ∨ uc > 0xDFFF then st.addSub.cancelSurrogate T
    else { st.addSub.add (T.addChar ((prev - 0xD800) * 1024 + (uc - 0xDC00) + 0x10000)) with prev := none }
  | none =>
    if uc ≥ 0xD800 ∧ uc ≤ 0xDBFF then { st.addSub with prev := some uc }
    else st.addSub.add (T.addChar uc)

def result (T : Target F) (st : StringState) : Str :=
  match (st.cancelled T).buf with
  | none => st.chunk
  | some buf => buf ++ st.chunk

end StringState

def stringLoop (T : Target F) : Nat → StringState → Input → Except Error (Str × Input)
  | 0, _, _ => .error .outOfFuel
  | _ + 1, _, ⟨_, []⟩ => .error .unclosedString
  | n + 1, st, ⟨p, c :: s⟩ =>
    if c = '"'.toNat then .ok (st.result T, ⟨p + 1, s⟩)
    else if c = '\\'.toNat then
      match s with
      | [] => .error (.invalidEscape none (p + 1))
      | c :: s =>
        if c = 'u'.toNat then
          match parseHex T (s.take 4) with
          | none => .error .parseInt
          | some uc => stringLoop T n (st.unicode T uc) ⟨p + 6, s.drop 4⟩
        else
          match StringState.unescape c with
          | none => .error (.invalidEscape (some c) (p + 1))
          | some e => stringLoop T n (st.escape T e) ⟨p + 2, s⟩
    else stringLoop T n (st.raw c) ⟨p + 1, s⟩

def parseString (T : Target F) (i : Input) : Except Error (Str × Input) :=
  stringLoop T (i.rest.length + 1) StringState.start i

/-! ## `parseNumber` -/

def isDigit (c : Nat) : Bool := '0'.toNat ≤ c && c ≤ '9'.toNat

/-- The characters that the loop of `parseNumber` has a case for. -/
def isNumberChar (c : Nat) : Bool :=
  isDigit c || c == '.'.toNat || c == 'e'.toNat || c == 'E'.toNat || c == '+'.toNat || c == '-'.toNat

structure NumberState where
  minus : Bool
  digit : Bool
  zero : Bool
  point : Bool
  e : Bool
  pm : Bool
  deriving DecidableEq

namespace NumberState

def start (c : Nat) : NumberState :=
  { minus := c = '-'.toNat, digit := c ≠ '-'.toNat, zero := c = '0'.toNat, point := false, e := false, pm := false }

/-- One round of the loop at a character of a number; `none` is `invalidNumber`. -/
def step (st : NumberState) (c : Nat) : Option NumberState :=
  if c = '0'.toNat then
    if st.zero ∧ !st.point then none
    else if st.minus then some { st with minus := false, zero := true, digit := true }
    else some { st with digit := true }
  else if isDigit c then
    if st.zero ∧ !st.point then none
    else some { st with minus := false, digit := true, zero := false }
  else if c = '.'.toNat then
    if st.minus ∨ st.point ∨ st.e then none
    else some { st with digit := false, point := true }
  else if c = 'e'.toNat ∨ c = 'E'.toNat then
    if st.minus ∨ st.zero ∨ st.e then none
    else some { st with digit := false, e := true }
  else
    if !st.e ∨ st.pm then none
    else some { st with digit := false, pm := true }

end NumberState

/-- `text` is what has been read from `start` on. -/
def numberLoop (start : Nat) (st : NumberState) (text : Str) (pos : Nat) :
    Str → Except Error (Str × NumberState × Input)
  | [] => if st.digit then .ok (text, st, ⟨pos, []⟩) else .error (.invalidNumber start text)
  | c :: s =>
    if isNumberChar c then
      match st.step c with
      | none => .error (.invalidNumber start (text ++ [c]))
      | some st => numberLoop start st (text ++ [c]) (pos + 1) s
    else if st.digit then .ok (text, st, ⟨pos, c :: s⟩)
    else .error (.invalidNumber start (text ++ [c]))

def numberValue (T : Target F) (point : Bool) (text : Str) : Dynamic F :=
  let f := T.parseFloat text
  if point then .float f
  else if T.eq (T.ofInt (T.int f)) f then .int (T.int f)
  else .float f

/-- `c` is the character at `pos - 1`. -/
def parseNumber (T : Target F) (c : Nat) (i : Input) : Except Error (Dynamic F × Input) := do
  let (text, st, i) ← numberLoop (i.pos - 1) (NumberState.start c) [c] i.pos i.rest
  return (numberValue T st.point text, i)

/-! ## `parseRec` -/

/-- The rest of `true`, `false` and `null` after the first character `c`. -/
def literal (c : Nat) (word : Str) (v : Dynamic F) (i : Input) : Except Error (Dynamic F × Input) :=
  if word.isPrefixOf i.rest then .ok (v, ⟨i.pos + word.length, i.rest.drop word.length⟩)
  else .error (.invalidChar (some c) (i.pos - 1))

/-- `Reflect.setField` -/
def setField (fields : List (Str × Dynamic F)) (name : Str) (v : Dynamic F) : List (Str × Dynamic F) :=
  match fields with
  | [] => [(name, v)]
  | (k, w) :: rest => if k = name then (name, v) :: rest else (k, w) :: setField rest name v

mutual

def parseRec (T : Target F) : Nat → Input → Except Error (Dynamic F × Input)
  | 0, _ => .error .outOfFuel
  | _ + 1, ⟨p, []⟩ => .error (.invalidChar none p)
  | n + 1, ⟨p, c :: s⟩ =>
    if isSpace c then parseRec T n ⟨p + 1, s⟩
    else if c = '\x7b'.toNat then parseObject T n [] none none ⟨p + 1, s⟩
    else if c = '['.toNat then parseArray T n [] none ⟨p + 1, s⟩
    else if c = 't'.toNat then literal c ['r'.toNat, 'u'.toNat, 'e'.toNat] (.bool true) ⟨p + 1, s⟩
    else if c = 'f'.toNat then
      literal c ['a'.toNat, 'l'.toNat, 's'.toNat, 'e'.toNat] (.bool false) ⟨p + 1, s⟩
    else if c = 'n'.toNat then literal c ['u'.toNat, 'l'.toNat, 'l'.toNat] .null ⟨p + 1, s⟩
    else if c = '"'.toNat then do
      let (text, i) ← parseString T ⟨p + 1, s⟩
      return (.str text, i)
    else if isDigit c ∨ c = '-'.toNat then parseNumber T c ⟨p + 1, s⟩
    else .error (.invalidChar (some c) p)

/-- The loop after an opening brace. -/
def parseObject (T : Target F) (n : Nat) (obj : List (Str × Dynamic F)) (field : Option Str) (comma : Option Bool)
    (i : Input) : Except Error (Dynamic F × Input) :=
  match n, i with
  | 0, _ => .error .outOfFuel
  | _ + 1, ⟨p, []⟩ => .error (.invalidChar none p)
  | n + 1, ⟨p, c :: s⟩ =>
    if isSpace c then parseObject T n obj field comma ⟨p + 1, s⟩
    else if c = '\x7d'.toNat then
      if field.isSome ∨ comma = some false then .error (.invalidChar (some c) p)
      else .ok (.obj obj, ⟨p + 1, s⟩)
    else if c = ':'.toNat then
      match field with
      | none => .error (.invalidChar (some c) p)
      | some name => do
        let (v, i) ← parseRec T n ⟨p + 1, s⟩
        parseObject T n (setField obj name v) none (some true) i
    else if c = ','.toNat then
      if comma = some true then parseObject T n obj field (some false) ⟨p + 1, s⟩
      else .error (.invalidChar (some c) p)
    else if c = '"'.toNat then
      if field.isSome ∨ comma = some true then .error (.invalidChar (some c) p)
      else do
        let (name, i) ← parseString T ⟨p + 1, s⟩
        parseObject T n obj (some name) comma i
    else .error (.invalidChar (some c) p)

/-- The loop after an opening bracket. -/
def parseArray (T : Target F) (n : Nat) (arr : List (Dynamic F)) (comma : Option Bool) (i : Input) :
    Except Error (Dynamic F × Input) :=
  match n, i with
  | 0, _ => .error .outOfFuel
  -- where no comma is due the end of the text goes to `parseRec`, which fails on it in the same way
  | _ + 1, ⟨p, []⟩ => .error (.invalidChar none p)
  | n + 1, ⟨p, c :: s⟩ =>
    if isSpace c then parseArray T n arr comma ⟨p + 1, s⟩
    else if c = ']'.toNat then
      if comma = some false then .error (.invalidChar (some c) p)
      else .ok (.arr arr, ⟨p + 1, s⟩)
    else if c = ','.toNat then
      if comma = some true then parseArray T n arr (some false) ⟨p + 1, s⟩
      else .error (.invalidChar (some c) p)
    else if comma = some true then .error (.invalidChar (some c) p)
    else do
      let (v, i) ← parseRec T n ⟨p, c :: s⟩
      parseArray T n (arr ++ [v]) (some true) i

end

/-- The loop of `doParse` after the value. -/
def trailing (pos : Nat) : Str → Option Error
  | [] => none
  | c :: s => if isSpace c then trailing (pos + 1) s else some (.invalidChar (some c) pos)

def doParse (T : Target F) (n : Nat) (i : Input) : Except Error (Dynamic F) := do
  let (result, i) ← parseRec T n i
  match trailing i.pos i.rest with
  | some err => .error err
  | none => return result

def parse (T : Target F) (str : Str) : Except Error (Dynamic F) :=
  doParse T (2 * str.length + 1) ⟨0, str⟩

end EvilHaxe.Json
