/-
JSON texts as concrete syntax trees: what a tree reads as, which trees the grammar of RFC 8259 has, and the values they
denote. A tree takes any run of number characters for a number and any escape for an escape, so that the same trees
describe the texts of the grammar and the texts that the parser takes.
-/
import EvilHaxe.Json.JsonParser

namespace EvilHaxe.Json

/-- A part of a string between its quotes. -/
inductive Piece where
  | raw (c : Nat)
  | escape (c : Nat)
  | unicode (a b c d : Nat)
  deriving DecidableEq

mutual

/-- The lists of codes are the whitespace around the tokens. -/
inductive Cst where
  | null
  | bool (b : Bool)
  | str (ps : List Piece)
  | num (text : Str)
  | emptyArr (ws : Str)
  | arr (before : Str) (v : Cst) (after : Str) (rest : Items)
  | emptyObj (ws : Str)
  | obj (before : Str) (key : List Piece) (colon : Str) (before' : Str) (v : Cst) (after : Str) (rest : Members)

/-- The items of an array after the first. -/
inductive Items where
  | nil
  | cons (before : Str) (v : Cst) (after : Str) (rest : Items)

inductive Members where
  | nil
  | cons (before : Str) (key : List Piece) (colon : Str) (before' : Str) (v : Cst) (after : Str) (rest : Members)

end

/-! ## The text of a tree -/

def Piece.render : Piece → Str
  | .raw c => [c]
  | .escape c => ['\\'.toNat, c]
  | .unicode a b c d => ['\\'.toNat, 'u'.toNat, a, b, c, d]

def renderPieces : List Piece → Str
  | [] => []
  | p :: ps => p.render ++ renderPieces ps

theorem renderPieces_cons (p : Piece) (ps : List Piece) : renderPieces (p :: ps) = p.render ++ renderPieces ps := rfl

/-- A string from its opening quote on. -/
def renderString (ps : List Piece) : Str := '"'.toNat :: (renderPieces ps ++ ['"'.toNat])

mutual

def Cst.render : Cst → Str
  | .null => ['n'.toNat, 'u'.toNat, 'l'.toNat, 'l'.toNat]
  | .bool true => ['t'.toNat, 'r'.toNat, 'u'.toNat, 'e'.toNat]
  | .bool false => ['f'.toNat, 'a'.toNat, 'l'.toNat, 's'.toNat, 'e'.toNat]
  | .str ps => renderString ps
  | .num text => text
  | .emptyArr ws => '['.toNat :: (ws ++ [']'.toNat])
  | .arr before v after rest => '['.toNat :: (before ++ (v.render ++ (after ++ (rest.render ++ [']'.toNat]))))
  | .emptyObj ws => '\x7b'.toNat :: (ws ++ ['\x7d'.toNat])
  | .obj before key colon before' v after rest =>
    '\x7b'.toNat :: (before ++ (renderString key ++ (colon ++ (':'.toNat :: (before' ++ (v.render ++ (after ++
      (rest.render ++ ['\x7d'.toNat]))))))))

def Items.render : Items → Str
  | .nil => []
  | .cons before v after rest => ','.toNat :: (before ++ (v.render ++ (after ++ rest.render)))

def Members.render : Members → Str
  | .nil => []
  | .cons before key colon before' v after rest =>
    ','.toNat :: (before ++ (renderString key ++ (colon ++ (':'.toNat :: (before' ++ (v.render ++ (after ++
      rest.render)))))))

end

/-! ## The trees of a grammar -/

def Space (ws : Str) : Prop := ∀ c ∈ ws, isSpace c = true

/-- The tokens that a grammar allows. -/
structure Tokens where
  piece : Piece → Prop
  number : Str → Prop

def Tokens.string (G : Tokens) (ps : List Piece) : Prop := ∀ p ∈ ps, G.piece p

mutual

def Cst.Allowed (G : Tokens) : Cst → Prop
  | .null => True
  | .bool _ => True
  | .str ps => G.string ps
  | .num text => G.number text
  | .emptyArr ws => Space ws
  | .arr before v after rest => Space before ∧ v.Allowed G ∧ Space after ∧ rest.Allowed G
  | .emptyObj ws => Space ws
  | .obj before key colon before' v after rest =>
    Space before ∧ G.string key ∧ Space colon ∧ Space before' ∧ v.Allowed G ∧ Space after ∧ rest.Allowed G

def Items.Allowed (G : Tokens) : Items → Prop
  | .nil => True
  | .cons before v after rest => Space before ∧ v.Allowed G ∧ Space after ∧ rest.Allowed G

def Members.Allowed (G : Tokens) : Members → Prop
  | .nil => True
  | .cons before key colon before' v after rest =>
    Space before ∧ G.string key ∧ Space colon ∧ Space before' ∧ v.Allowed G ∧ Space after ∧ rest.Allowed G

end

/-- `G'` allows every token that `G` allows. -/
structure Tokens.Le (G G' : Tokens) : Prop where
  piece : ∀ p, G.piece p → G'.piece p
  number : ∀ text, G.number text → G'.number text

theorem Tokens.Le.string {G G' : Tokens} (le : G.Le G') {ps : List Piece} (h : G.string ps) : G'.string ps :=
  fun p hp => le.piece p (h p hp)

mutual

theorem Cst.Allowed.mono {G G' : Tokens} (le : G.Le G') : ∀ t : Cst, t.Allowed G → t.Allowed G'
  | .null, _ => trivial
  | .bool _, _ => trivial
  | .str _, h => le.string h
  | .num text, h => le.number text h
  | .emptyArr _, h => h
  | .arr _ v _ rest, ⟨hb, hv, ha, hi⟩ => ⟨hb, Cst.Allowed.mono le v hv, ha, Items.Allowed.mono le rest hi⟩
  | .emptyObj _, h => h
  | .obj _ _ _ _ v _ rest, ⟨hb, hk, hc, hb', hv, ha, hm⟩ =>
    ⟨hb, le.string hk, hc, hb', Cst.Allowed.mono le v hv, ha, Members.Allowed.mono le rest hm⟩

theorem Items.Allowed.mono {G G' : Tokens} (le : G.Le G') : ∀ rest : Items, rest.Allowed G → rest.Allowed G'
  | .nil, _ => trivial
  | .cons _ v _ rest, ⟨hb, hv, ha, hi⟩ => ⟨hb, Cst.Allowed.mono le v hv, ha, Items.Allowed.mono le rest hi⟩

theorem Members.Allowed.mono {G G' : Tokens} (le : G.Le G') : ∀ rest : Members, rest.Allowed G → rest.Allowed G'
  | .nil, _ => trivial
  | .cons _ _ _ _ v _ rest, ⟨hb, hk, hc, hb', hv, ha, hm⟩ =>
    ⟨hb, le.string hk, hc, hb', Cst.Allowed.mono le v hv, ha, Members.Allowed.mono le rest hm⟩

end

/-- `s` is a text of the grammar, with the tree `t` between whitespace. -/
def IsText (G : Tokens) (s : Str) (t : Cst) : Prop :=
  t.Allowed G ∧ ∃ before after, Space before ∧ Space after ∧ s = before ++ (t.render ++ after)

def Digits (ds : Str) : Prop := ∀ d ∈ ds, isDigit d = true

/-! ## RFC 8259 -/

/-- `int` with its optional minus, up to the point where the fraction begins. -/
def IntPart (text : Str) : Prop :=
  text = ['0'.toNat] ∨ ∃ d ds, text = d :: ds ∧ isDigit d = true ∧ d ≠ '0'.toNat ∧ Digits ds

def MinusPart (text : Str) : Prop := text = [] ∨ text = ['-'.toNat]

def IsExp (c : Nat) : Prop := c = 'e'.toNat ∨ c = 'E'.toNat

def IsSign (c : Nat) : Prop := c = '+'.toNat ∨ c = '-'.toNat

def FracPart (text : Str) : Prop := text = [] ∨ ∃ ds, text = '.'.toNat :: ds ∧ Digits ds ∧ ds ≠ []

def ExpPart (text : Str) : Prop :=
  text = [] ∨ ∃ e sign ds, IsExp e ∧ (sign = [] ∨ ∃ c, IsSign c ∧ sign = [c]) ∧ Digits ds ∧ ds ≠ [] ∧
    text = e :: (sign ++ ds)

def RfcNumber (text : Str) : Prop :=
  ∃ minus int frac exp, MinusPart minus ∧ IntPart int ∧ FracPart frac ∧ ExpPart exp ∧
    text = minus ++ (int ++ (frac ++ exp))

/-- The characters after a backslash, and what they stand for. -/
def rfcEscapes : List (Nat × Nat) :=
  [('"'.toNat, 0x22), ('\\'.toNat, 0x5C), ('/'.toNat, 0x2F), ('b'.toNat, 0x8), ('f'.toNat, 0xC), ('n'.toNat, 0xA),
    ('r'.toNat, 0xD), ('t'.toNat, 0x9)]

def RfcPiece : Piece → Prop
  | .raw c => 0x20 ≤ c ∧ c ≠ '"'.toNat ∧ c ≠ '\\'.toNat
  | .escape c => (rfcEscapes.lookup c).isSome
  | .unicode a b c d => isHex a = true ∧ isHex b = true ∧ isHex c = true ∧ isHex d = true

def rfc8259 : Tokens := { piece := RfcPiece, number := RfcNumber }

/-! ## What the trees denote -/

variable {F : Type}

def hexValue (digits : Str) : Nat := digits.foldl (fun n d => n * 16 + hexDigit d) 0

/-- The string that the pieces denote. An escape of a surrogate without its partner denotes none. -/
def meaning (T : Target F) : List Piece → Option Str
  | [] => some []
  | .raw c :: ps => (meaning T ps).map (c :: ·)
  | .escape c :: ps => (rfcEscapes.lookup c).bind fun e => (meaning T ps).map (e :: ·)
  | .unicode a b c d :: ps =>
    let u := hexValue [a, b, c, d]
    if 0xD800 ≤ u ∧ u ≤ 0xDBFF then
      match ps with
      | .unicode a b c d :: ps =>
        let v := hexValue [a, b, c, d]
        if 0xDC00 ≤ v ∧ v ≤ 0xDFFF then
          (meaning T ps).map (T.addChar (0x10000 + (u - 0xD800) * 0x400 + (v - 0xDC00)) ++ ·)
        else none
      | _ => none
    else if 0xDC00 ≤ u ∧ u ≤ 0xDFFF then none
    else (meaning T ps).map (u :: ·)

/-- What is read from a string that denotes none is not restricted. -/
def StringDenotes (T : Target F) (ps : List Piece) (s : Str) : Prop := ∀ m, meaning T ps = some m → s = m

/-- An integer stands for the number where it compares equal to it. -/
def NumberDenotes (T : Target F) (text : Str) (v : Dynamic F) : Prop :=
  v = .float (T.parseFloat text) ∨ ∃ i, v = .int i ∧ T.eq (T.ofInt i) (T.parseFloat text) = true

mutual

/-- Of the members of one name the last counts. -/
def Cst.Denotes (T : Target F) : Cst → Dynamic F → Prop
  | .null, v => v = .null
  | .bool b, v => v = .bool b
  | .str ps, v => ∃ s, v = .str s ∧ StringDenotes T ps s
  | .num text, v => NumberDenotes T text v
  | .emptyArr _, v => v = .arr []
  | .arr _ item _ rest, v => ∃ w ws, v = .arr (w :: ws) ∧ item.Denotes T w ∧ rest.Denotes T ws
  | .emptyObj _, v => v = .obj []
  | .obj _ key _ _ item _ rest, v =>
    ∃ k w fields, v = .obj fields ∧ StringDenotes T key k ∧ item.Denotes T w ∧ rest.Denotes T [(k, w)] fields

def Items.Denotes (T : Target F) : Items → List (Dynamic F) → Prop
  | .nil, vs => vs = []
  | .cons _ item _ rest, vs => ∃ w ws, vs = w :: ws ∧ item.Denotes T w ∧ rest.Denotes T ws

/-- `before` are the fields of the members before. -/
def Members.Denotes (T : Target F) : Members → List (Str × Dynamic F) → List (Str × Dynamic F) → Prop
  | .nil, before, fields => fields = before
  | .cons _ key _ _ item _ rest, before, fields =>
    ∃ k w, StringDenotes T key k ∧ item.Denotes T w ∧ rest.Denotes T (setField before k w) fields

end

/-! ## The tokens that the parser takes -/

/-- The fraction may lack its digits where an exponent follows it. -/
def LooseFrac (text exp : Str) : Prop := text = [] ∨ ∃ ds, text = '.'.toNat :: ds ∧ Digits ds ∧ (ds = [] → exp ≠ [])

/-- The sign may stand anywhere before the last digit. -/
def LooseExp (text : Str) : Prop :=
  text = [] ∨ (∃ e ds, IsExp e ∧ Digits ds ∧ ds ≠ [] ∧ text = e :: ds) ∨
    ∃ e ds c ds', IsExp e ∧ Digits ds ∧ IsSign c ∧ Digits ds' ∧ ds' ≠ [] ∧ text = e :: (ds ++ (c :: ds'))

/-- No digit of the fraction and the integer is other than zero. -/
def ZeroMantissa (int frac : Str) : Prop := int = ['0'.toNat] ∧ ∀ c ∈ frac, c = '.'.toNat ∨ c = '0'.toNat

def TakenNumber (text : Str) : Prop :=
  ∃ minus int frac exp, MinusPart minus ∧ IntPart int ∧ LooseFrac frac exp ∧ LooseExp exp ∧
    (exp ≠ [] → ¬ ZeroMantissa int frac) ∧ text = minus ++ (int ++ (frac ++ exp))

def TakenPiece (T : Target F) : Piece → Prop
  | .raw c => c ≠ '"'.toNat ∧ c ≠ '\\'.toNat
  | .escape c => c ≠ 'u'.toNat ∧ (StringState.unescape c).isSome
  | .unicode a b c d => (parseHex T [a, b, c, d]).isSome

def taken (T : Target F) : Tokens := { piece := TakenPiece T, number := TakenNumber }

/-! ## Tokens of any kind -/

def AnyPiece : Piece → Prop
  | .raw c => c ≠ '"'.toNat ∧ c ≠ '\\'.toNat
  | .escape c => c ≠ 'u'.toNat
  | .unicode _ _ _ _ => True

def AnyNumber (text : Str) : Prop :=
  ∃ c s, text = c :: s ∧ (isDigit c = true ∨ c = '-'.toNat) ∧ ∀ d ∈ s, isNumberChar d = true

/-- Texts that are well formed but for their numbers and their escapes. -/
def anyTokens : Tokens := { piece := AnyPiece, number := AnyNumber }

end EvilHaxe.Json
