/-
`evilEncode.ml`, `evilDecode.ml` and the functions of `macroApi.ml` they use: tokens as values of
the macro interpreter and back. Encoder and decoder agree on every token but one kind: a number
literal whose suffix the decoder of constants does not know.
-/
import EvilHaxe.Syntax.Parser
import Mathlib.Data.List.TakeWhile

namespace EvilHaxe.Evil

open EvilHaxe.Syntax

/-! ## Values -/

/-- The members of `MacroApi.enum_type` that tokens and syntax trees need. -/
inductive EnumType where
  | iBinop | iUnop | iConst | iStringLiteralKind | iToken | iKeyword
  | iExpr | iCType | iTParam | iField | iAccess | iFunctionKind | iEFieldKind | iQuoteStatus | iDisplayKind
  deriving DecidableEq, Repr

/-- The values of the interpreter that encode tokens and syntax trees. A position is without its content. -/
inductive Value where
  | vNull
  | vBool (b : Bool)
  | vString (s : String)
  | vPos
  | vArray (vl : List Value)
  | vObject (fields : List (String × Value))
  | vEnumValue (epath : EnumType) (eindex : Nat) (eargs : List Value)

/-- `EvalDecode.decode_enum`. -/
def decodeEnum : Value → Except Exc (Nat × List Value)
  | .vEnumValue _ eindex eargs => .ok (eindex, eargs)
  | _ => .error (.unexpectedValue "enum")

/-- `EvalDecode.decode_string`. -/
def decodeString : Value → Except Exc String
  | .vString s => .ok s
  | _ => .error (.unexpectedValue "string")

/-- `null encode_string`. -/
def encodeOptString : Option String → Value
  | none => .vNull
  | some s => .vString s

/-- `opt decode_string`. -/
def decodeOptString : Value → Except Exc (Option String)
  | .vNull => .ok none
  | v => (decodeString v).map some

/-! ## `macroApi.ml` -/

def encodeStringLiteralKind (qs : StringLiteralKind) : Value :=
  .vEnumValue .iStringLiteralKind (match qs with | .sDoubleQuotes => 0 | .sSingleQuotes => 1) []

def decodeStringLiteralKind : Value → Except Exc StringLiteralKind
  | .vNull => .ok .sDoubleQuotes
  | v => do
    match ← decodeEnum v with
    | (0, []) => .ok .sDoubleQuotes
    | (1, []) => .ok .sSingleQuotes
    | _ => .error .invalidExpr

def encodeConst : Constant → Value
  | .int s suffix => .vEnumValue .iConst 0 [.vString s, encodeOptString suffix]
  | .float s suffix => .vEnumValue .iConst 1 [.vString s, encodeOptString suffix]
  | .string s qs => .vEnumValue .iConst 2 [.vString s, encodeStringLiteralKind qs]
  | .ident s => .vEnumValue .iConst 3 [.vString s]
  | .regexp s opt => .vEnumValue .iConst 4 [.vString s, .vString opt]

/-- The suffixes `decode_const` accepts on an `Int`. -/
def intSuffixOk (suffix : Option String) : Bool :=
  suffix = none || suffix = some "i32" || suffix = some "i64" || suffix = some "u32"

/-- The suffixes `decode_const` accepts on a `Float`. -/
def floatSuffixOk (suffix : Option String) : Bool :=
  suffix = none || suffix = some "f64"

def decodeConst (c : Value) : Except Exc Constant := do
  match ← decodeEnum c with
  | (0, [s, suffix]) =>
    let decodedSuffix ← decodeOptString suffix
    if intSuffixOk decodedSuffix then return .int (← decodeString s) decodedSuffix
    else throw .invalidExpr
  | (1, [s, suffix]) =>
    let decodedSuffix ← decodeOptString suffix
    if floatSuffixOk decodedSuffix then return .float (← decodeString s) decodedSuffix
    else throw .invalidExpr
  | (2, [s, qs]) => return .string (← decodeString s) (← decodeStringLiteralKind qs)
  | (3, [s]) => return .ident (← decodeString s)
  | (4, [s, opt]) => return .regexp (← decodeString s) (← decodeString opt)
  | (5, [s]) => return .ident (← decodeString s)
  | _ => throw .invalidExpr

def encodeBinop : Binop → Value
  | .opAdd => .vEnumValue .iBinop 0 [] | .opMult => .vEnumValue .iBinop 1 []
  | .opDiv => .vEnumValue .iBinop 2 [] | .opSub => .vEnumValue .iBinop 3 []
  | .opAssign => .vEnumValue .iBinop 4 [] | .opEq => .vEnumValue .iBinop 5 []
  | .opNotEq => .vEnumValue .iBinop 6 [] | .opGt => .vEnumValue .iBinop 7 []
  | .opGte => .vEnumValue .iBinop 8 [] | .opLt => .vEnumValue .iBinop 9 []
  | .opLte => .vEnumValue .iBinop 10 [] | .opAnd => .vEnumValue .iBinop 11 []
  | .opOr => .vEnumValue .iBinop 12 [] | .opXor => .vEnumValue .iBinop 13 []
  | .opBoolAnd => .vEnumValue .iBinop 14 [] | .opBoolOr => .vEnumValue .iBinop 15 []
  | .opShl => .vEnumValue .iBinop 16 [] | .opShr => .vEnumValue .iBinop 17 []
  | .opUShr => .vEnumValue .iBinop 18 [] | .opMod => .vEnumValue .iBinop 19 []
  | .opAssignOp op => .vEnumValue .iBinop 20 [encodeBinop op]
  | .opInterval => .vEnumValue .iBinop 21 [] | .opArrow => .vEnumValue .iBinop 22 []
  | .opIn => .vEnumValue .iBinop 23 [] | .opNullCoal => .vEnumValue .iBinop 24 []

def decodeOp : Value → Except Exc Binop
  | .vEnumValue _ 0 [] => .ok .opAdd | .vEnumValue _ 1 [] => .ok .opMult
  | .vEnumValue _ 2 [] => .ok .opDiv | .vEnumValue _ 3 [] => .ok .opSub
  | .vEnumValue _ 4 [] => .ok .opAssign | .vEnumValue _ 5 [] => .ok .opEq
  | .vEnumValue _ 6 [] => .ok .opNotEq | .vEnumValue _ 7 [] => .ok .opGt
  | .vEnumValue _ 8 [] => .ok .opGte | .vEnumValue _ 9 [] => .ok .opLt
  | .vEnumValue _ 10 [] => .ok .opLte | .vEnumValue _ 11 [] => .ok .opAnd
  | .vEnumValue _ 12 [] => .ok .opOr | .vEnumValue _ 13 [] => .ok .opXor
  | .vEnumValue _ 14 [] => .ok .opBoolAnd | .vEnumValue _ 15 [] => .ok .opBoolOr
  | .vEnumValue _ 16 [] => .ok .opShl | .vEnumValue _ 17 [] => .ok .opShr
  | .vEnumValue _ 18 [] => .ok .opUShr | .vEnumValue _ 19 [] => .ok .opMod
  | .vEnumValue _ 20 [op] => (decodeOp op).map .opAssignOp
  | .vEnumValue _ 21 [] => .ok .opInterval | .vEnumValue _ 22 [] => .ok .opArrow
  | .vEnumValue _ 23 [] => .ok .opIn | .vEnumValue _ 24 [] => .ok .opNullCoal
  | .vEnumValue _ _ _ => .error .invalidExpr
  | _ => .error (.unexpectedValue "enum")

def encodeUnop (op : Unop) : Value :=
  .vEnumValue .iUnop (match op with
    | .increment => 0 | .decrement => 1 | .not => 2 | .neg => 3 | .negBits => 4 | .spread => 5) []

def decodeUnop (op : Value) : Except Exc Unop := do
  match ← decodeEnum op with
  | (0, []) => .ok .increment
  | (1, []) => .ok .decrement
  | (2, []) => .ok .not
  | (3, []) => .ok .neg
  | (4, []) => .ok .negBits
  | (5, []) => .ok .spread
  | _ => .error .invalidExpr

/-! ## `evilEncode.ml` and `evilDecode.ml` -/

def encodeKeyword (k : Keyword) : Value :=
  .vEnumValue .iKeyword (match k with
    | .kwFunction => 0 | .kwClass => 1 | .kwVar => 2 | .kwIf => 3 | .kwElse => 4 | .kwWhile => 5
    | .kwDo => 6 | .kwFor => 7 | .kwBreak => 8 | .kwContinue => 9 | .kwReturn => 10
    | .kwExtends => 11 | .kwImplements => 12 | .kwImport => 13 | .kwSwitch => 14 | .kwCase => 15
    | .kwDefault => 16 | .kwStatic => 17 | .kwPublic => 18 | .kwPrivate => 19 | .kwTry => 20
    | .kwCatch => 21 | .kwNew => 22 | .kwThis => 23 | .kwThrow => 24 | .kwExtern => 25
    | .kwEnum => 26 | .kwIn => 27 | .kwInterface => 28 | .kwUntyped => 29 | .kwCast => 30
    | .kwOverride => 31 | .kwTypedef => 32 | .kwDynamic => 33 | .kwPackage => 34
    | .kwInline => 35 | .kwUsing => 36 | .kwNull => 37 | .kwTrue => 38 | .kwFalse => 39
    | .kwAbstract => 40 | .kwMacro => 41 | .kwFinal => 42 | .kwOperator => 43 | .kwOverload => 44) []

def decodeKeyword (k : Value) : Except Exc Keyword := do
  match ← decodeEnum k with
  | (0, []) => .ok .kwFunction | (1, []) => .ok .kwClass | (2, []) => .ok .kwVar
  | (3, []) => .ok .kwIf | (4, []) => .ok .kwElse | (5, []) => .ok .kwWhile
  | (6, []) => .ok .kwDo | (7, []) => .ok .kwFor | (8, []) => .ok .kwBreak
  | (9, []) => .ok .kwContinue | (10, []) => .ok .kwReturn | (11, []) => .ok .kwExtends
  | (12, []) => .ok .kwImplements | (13, []) => .ok .kwImport | (14, []) => .ok .kwSwitch
  | (15, []) => .ok .kwCase | (16, []) => .ok .kwDefault | (17, []) => .ok .kwStatic
  | (18, []) => .ok .kwPublic | (19, []) => .ok .kwPrivate | (20, []) => .ok .kwTry
  | (21, []) => .ok .kwCatch | (22, []) => .ok .kwNew | (23, []) => .ok .kwThis
  | (24, []) => .ok .kwThrow | (25, []) => .ok .kwExtern | (26, []) => .ok .kwEnum
  | (27, []) => .ok .kwIn | (28, []) => .ok .kwInterface | (29, []) => .ok .kwUntyped
  | (30, []) => .ok .kwCast | (31, []) => .ok .kwOverride | (32, []) => .ok .kwTypedef
  | (33, []) => .ok .kwDynamic | (34, []) => .ok .kwPackage | (35, []) => .ok .kwInline
  | (36, []) => .ok .kwUsing | (37, []) => .ok .kwNull | (38, []) => .ok .kwTrue
  | (39, []) => .ok .kwFalse | (40, []) => .ok .kwAbstract | (41, []) => .ok .kwMacro
  | (42, []) => .ok .kwFinal | (43, []) => .ok .kwOperator | (44, []) => .ok .kwOverload
  | _ => .error (.unexpectedValue "enum")

def encodeToken : Token → Value
  | .eof => .vEnumValue .iToken 0 []
  | .const c => .vEnumValue .iToken 1 [encodeConst c]
  | .kwd k => .vEnumValue .iToken 2 [encodeKeyword k]
  | .comment s => .vEnumValue .iToken 3 [.vString s]
  | .commentLine s => .vEnumValue .iToken 4 [.vString s]
  | .binop op => .vEnumValue .iToken 5 [encodeBinop op]
  | .unop op => .vEnumValue .iToken 6 [encodeUnop op]
  | .semicolon => .vEnumValue .iToken 7 []
  | .comma => .vEnumValue .iToken 8 []
  | .brOpen => .vEnumValue .iToken 9 []
  | .brClose => .vEnumValue .iToken 10 []
  | .bkOpen => .vEnumValue .iToken 11 []
  | .bkClose => .vEnumValue .iToken 12 []
  | .pOpen => .vEnumValue .iToken 13 []
  | .pClose => .vEnumValue .iToken 14 []
  | .dot => .vEnumValue .iToken 15 []
  | .dblDot => .vEnumValue .iToken 16 []
  | .questionDot => .vEnumValue .iToken 17 []
  | .arrow => .vEnumValue .iToken 18 []
  | .intInterval s => .vEnumValue .iToken 19 [.vString s]
  | .sharp s => .vEnumValue .iToken 20 [.vString s]
  | .question => .vEnumValue .iToken 21 []
  | .atSign => .vEnumValue .iToken 22 []
  | .dollar s => .vEnumValue .iToken 23 [.vString s]
  | .spread => .vEnumValue .iToken 24 []

def decodeToken (t : Value) : Except Exc Token := do
  match ← decodeEnum t with
  | (0, []) => return .eof
  | (1, [c]) => return .const (← decodeConst c)
  | (2, [k]) => return .kwd (← decodeKeyword k)
  | (3, [s]) => return .comment (← decodeString s)
  | (4, [s]) => return .commentLine (← decodeString s)
  | (5, [b]) => return .binop (← decodeOp b)
  | (6, [u]) => return .unop (← decodeUnop u)
  | (7, []) => return .semicolon
  | (8, []) => return .comma
  | (9, []) => return .brOpen
  | (10, []) => return .brClose
  | (11, []) => return .bkOpen
  | (12, []) => return .bkClose
  | (13, []) => return .pOpen
  | (14, []) => return .pClose
  | (15, []) => return .dot
  | (16, []) => return .dblDot
  | (17, []) => return .questionDot
  | (18, []) => return .arrow
  | (19, [s]) => return .intInterval (← decodeString s)
  | (20, [s]) => return .sharp (← decodeString s)
  | (21, []) => return .question
  | (22, []) => return .atSign
  | (23, [s]) => return .dollar (← decodeString s)
  | (24, []) => return .spread
  | _ => throw (.unexpectedValue "enum")

/-! ## The suffixes of the lexer -/

/-- The loop of `split_suffix`: the last position of a suffix letter. -/
def splitSuffix.loop (isInt : Bool) : List Char → Nat → Option Nat → Option Nat
  | [], _, pivot => pivot
  | c :: cs, i, pivot =>
    if c = 'i' ∨ c = 'u' ∨ (c = 'f' ∧ isInt = false) then splitSuffix.loop isInt cs (i + 1) (some i)
    else splitSuffix.loop isInt cs (i + 1) pivot

/-- `split_suffix`. A pivot is never the first position: a literal starts with a digit or a dot. -/
def splitSuffix (s : List Char) (isInt : Bool) : List Char × Option (List Char) :=
  match splitSuffix.loop isInt s 0 none with
  | none => (s, none)
  | some pivot =>
    let literalLength := if s[pivot - 1]? = some '_' then pivot - 1 else pivot
    (s.take literalLength, some (s.drop pivot))

def splitIntSuffix (s : List Char) : Token :=
  let (literal, suffix) := splitSuffix s true
  .const (.int (String.ofList literal) (suffix.map String.ofList))

def splitFloatSuffix (s : List Char) : Token :=
  let (literal, suffix) := splitSuffix s false
  .const (.float (String.ofList literal) (suffix.map String.ofList))

/-! ## Token transmuters -/

/-- `call_hooks`. -/
def callHooks {α β : Type} : List (α → Except Exc (Option β)) → α → Except Exc (Option β)
  | [], _ => .ok none
  | h :: l, params => do
    match ← h params with
    | none => callHooks l params
    | r => return r

/-- `decode_token_transmuter_callback`: the hook a Haxe callback becomes. -/
def decodeTokenTransmuterCallback (hxf : Value → Except Exc Value) (token : Token) :
    Except Exc (Option Token) := do
  match ← hxf (encodeToken token) with
  | .vNull => return none
  | hxField => return some (← decodeToken hxField)

/-- What the stream of `parse` makes of one token of `next_token`. -/
def transmute (tokenTransmuter : List (Token → Except Exc (Option Token))) (t : Token × Pos) :
    Except Exc (Token × Pos) := do
  match ← callHooks tokenTransmuter t.1 with
  | some t2 => return (t2, t.2)
  | none => return t

/-- The stream of a file, read to its end or to the first exception. -/
def deliver (tokenTransmuter : List (Token → Except Exc (Option Token))) :
    List (Token × Pos) → List (Token × Pos) × Except Exc Unit
  | [] => ([], .ok ())
  | t :: s =>
    match transmute tokenTransmuter t with
    | .error e => ([], .error e)
    | .ok t2 => (t2 :: (deliver tokenTransmuter s).1, (deliver tokenTransmuter s).2)

/-- A transmuter that returns its argument. -/
def identityTransmuter : Token → Except Exc (Option Token) :=
  decodeTokenTransmuterCallback .ok

/-! ## Round trips -/

/-- The suffixes that survive the macro interpreter. -/
def suffixOk : Token → Bool
  | .const (.int _ suffix) => intSuffixOk suffix
  | .const (.float _ suffix) => floatSuffixOk suffix
  | _ => true

@[simp] theorem decodeOptString_encodeOptString (o : Option String) :
    decodeOptString (encodeOptString o) = .ok o := by
  cases o <;> rfl

@[simp] theorem decodeStringLiteralKind_encode (qs : StringLiteralKind) :
    decodeStringLiteralKind (encodeStringLiteralKind qs) = .ok qs := by
  cases qs <;> rfl

/-- Constants: the decoder refuses the suffixes it does not know. -/
theorem decodeConst_encodeConst (c : Constant) :
    decodeConst (encodeConst c) =
      if suffixOk (.const c) then .ok c else .error .invalidExpr := by
  cases c with
  | int s suffix =>
    show (decodeOptString (encodeOptString suffix) >>= _) = _
    rw [decodeOptString_encodeOptString]
    rfl
  | float s suffix =>
    show (decodeOptString (encodeOptString suffix) >>= _) = _
    rw [decodeOptString_encodeOptString]
    rfl
  | string s qs => cases qs <;> rfl
  | ident s => rfl
  | regexp s opt => rfl

/-- Operators, by induction on the nesting of `OpAssignOp`. -/
@[simp] theorem decodeOp_encodeBinop (op : Binop) : decodeOp (encodeBinop op) = .ok op := by
  induction op with
  | opAssignOp op ih => simp only [encodeBinop, decodeOp, ih]; rfl
  | _ => rfl

@[simp] theorem decodeUnop_encodeUnop (op : Unop) : decodeUnop (encodeUnop op) = .ok op := by
  cases op <;> rfl

@[simp] theorem decodeKeyword_encodeKeyword (k : Keyword) :
    decodeKeyword (encodeKeyword k) = .ok k := by
  cases k <;> rfl

/-- Tokens: the round trip succeeds exactly when the literal's suffix is known. -/
theorem decodeToken_encodeToken (t : Token) :
    decodeToken (encodeToken t) = if suffixOk t then .ok t else .error .invalidExpr := by
  cases t with
  | const c =>
    show (Token.const <$> decodeConst (encodeConst c)) = _
    rw [decodeConst_encodeConst]
    split <;> rfl
  | kwd k =>
    show (Token.kwd <$> decodeKeyword (encodeKeyword k)) = _
    rw [decodeKeyword_encodeKeyword]
    rfl
  | binop op =>
    show (Token.binop <$> decodeOp (encodeBinop op)) = _
    rw [decodeOp_encodeBinop]
    rfl
  | unop op =>
    show (Token.unop <$> decodeUnop (encodeUnop op)) = _
    rw [decodeUnop_encodeUnop]
    rfl
  | _ => rfl

/-- `encode_token` never gives `null`, so a transmuter that returns it is not taken for one that
declines. -/
theorem identityTransmuter_eq (t : Token) :
    identityTransmuter t = if suffixOk t then .ok (some t) else .error .invalidExpr := by
  have h : identityTransmuter t = some <$> decodeToken (encodeToken t) := by
    cases t <;> rfl
  rw [h, decodeToken_encodeToken]
  split <;> rfl

theorem transmute_identity (t : Token × Pos) :
    transmute [identityTransmuter] t = if suffixOk t.1 then .ok t else .error .invalidExpr := by
  unfold transmute
  simp only [callHooks, identityTransmuter_eq]
  split <;> rfl

/-- An identity transmuter delivers the longest prefix of tokens with known suffixes, unchanged. -/
theorem deliver_identity (s : List (Token × Pos)) :
    deliver [identityTransmuter] s =
      (s.takeWhile (fun t => suffixOk t.1),
        if s.all (fun t => suffixOk t.1) then .ok () else .error .invalidExpr) := by
  induction s with
  | nil => rfl
  | cons t s ih =>
    rw [deliver, transmute_identity]
    by_cases h : suffixOk t.1 = true
    · simp only [h, ih, if_true, List.takeWhile_cons, List.all_cons, Bool.true_and]
    · simp [h]

/-! ## The lexer's suffixes and the decoder's -/

/-- Every token but a literal with an unknown suffix comes back as it was; such a literal makes the
decoder raise. So an identity transmuter leaves a stream without such literals unchanged. -/
theorem token_round_trip :
    (∀ t, decodeToken (encodeToken t) = if suffixOk t then .ok t else .error .invalidExpr) ∧
    (∀ s : List (Token × Pos), (∀ t ∈ s, suffixOk t.1 = true) →
      deliver [identityTransmuter] s = (s, .ok ())) := by
  refine ⟨decodeToken_encodeToken, fun s hs => ?_⟩
  have hw : s.takeWhile (fun t => suffixOk t.1) = s := List.takeWhile_eq_self_iff.2 hs
  have ha : s.all (fun t => suffixOk t.1) = true := List.all_eq_true.2 hs
  rw [deliver_identity, hw, ha]
  rfl

/-- The lexer makes a token of `1u64` that the decoder refuses. -/
theorem u64_not_decoded :
    splitIntSuffix ['1', 'u', '6', '4'] = .const (.int "1" (some "u64")) ∧
    decodeToken (encodeToken (splitIntSuffix ['1', 'u', '6', '4'])) = .error .invalidExpr ∧
    deliver [identityTransmuter] [(splitIntSuffix ['1', 'u', '6', '4'], ⟨0, 4⟩)]
      = ([], .error .invalidExpr) := by
  decide

end EvilHaxe.Evil
