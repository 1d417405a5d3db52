/-
Escapes in strings: `s_escape` of `stringHelper.ml` and `unescape` of `ast.ml`. A string is the list of its bytes, and a
byte is written as the character with its code.
-/
import EvilHaxe.ParserEntry.Eval

namespace EvilHaxe.Escapes

open EvilHaxe.ParserEntry

/-! ## `s_escape` -/

/-- `%X` of a digit. -/
def upperDigit (n : Nat) : Char := if n < 10 then Char.ofNat (n + 48) else Char.ofNat (n + 55)

/-- The match of `s_escape`. -/
def escapeChar (hex : Bool) (c : Char) : List Char :=
  match c with
  | '\n' => ['\\', 'n']
  | '\t' => ['\\', 't']
  | '\r' => ['\\', 'r']
  | '"' => ['\\', '"']
  | '\\' => ['\\', '\\']
  | c => if c.toNat < 32 && hex then ['\\', 'x', upperDigit (c.toNat / 16), upperDigit (c.toNat % 16)] else [c]

def sEscape (hex : Bool) (s : List Char) : List Char := s.flatMap (escapeChar hex)

/-! ## `unescape` -/

inductive Exn where
  | invalidEscapeSequence (c : Char) (i : Nat) (msg : Option String)
  | invalidArgument (s : String)
  deriving DecidableEq

/-- `String.sub` of what is left of a string. -/
def sub (s : List Char) (len : Nat) : Option (List Char) := if len ≤ s.length then some (s.take len) else none

/-- `int_of_string`, after a prefix for the base. -/
def intOf (base : Char) (s : List Char) : Option Int := intOfString (String.ofList ('0' :: base :: s))

/-- `char_of_int`. -/
def charOfInt (u : Int) : Except Exn Char :=
  if 0 ≤ u ∧ u ≤ 255 then .ok (Char.ofNat u.toNat) else .error (.invalidArgument "Char.chr")

/-- `UCharExt.uchar_of_int`. -/
def ucharOfInt (n : Int) : Except Exn Nat :=
  if 0 ≤ n ∧ n < 2 ^ 31 then .ok n.toNat else .error (.invalidArgument "UChar.uint_chr")

/-- `UTF8.add_uchar`, on 31 bits. -/
def addUchar (k : Nat) : List Char :=
  let masq n := Char.ofNat (0x80 ||| (n &&& 0x3f))
  if k ≥ 0x4000000 then
    [Char.ofNat (0xfc + (k >>> 30)), masq (k >>> 24), masq (k >>> 18), masq (k >>> 12), masq (k >>> 6), masq k]
  else if k ≤ 0x7f then [Char.ofNat k]
  else if k ≤ 0x7ff then [Char.ofNat (0xc0 ||| (k >>> 6)), masq k]
  else if k ≤ 0xffff then [Char.ofNat (0xe0 ||| (k >>> 12)), masq (k >>> 6), masq k]
  else if k ≤ 0x1fffff then [Char.ofNat (0xf0 + (k >>> 18)), masq (k >>> 12), masq (k >>> 6), masq k]
  else [Char.ofNat (0xf8 + (k >>> 24)), masq (k >>> 18), masq (k >>> 12), masq (k >>> 6), masq k]

def lowerDigit (n : Nat) : Char := if n < 10 then Char.ofNat (n + 48) else Char.ofNat (n + 87)

/-- `%02x`, of a number with at most three digits. -/
def formatHex (u : Nat) : String :=
  String.ofList ((if u < 256 then [] else [lowerDigit (u / 256)]) ++ [lowerDigit (u / 16 % 16), lowerDigit (u % 16)])

/-- The code point of `\u`, and how many characters it is written with. -/
def codePoint (fail : Option String → Exn) (cs : List Char) : Except Exn (Int × Nat) :=
  let failNoHex := fail (some "Must be followed by a hexadecimal sequence enclosed in curly brackets.")
  match (sub cs 4).bind (intOf 'x') with
  | some u => .ok (u, 4)
  | none =>
    match cs with
    | '\x7b' :: d :: ds =>
      -- `}` is looked for from the second character on
      match ds.idxOf? '\x7d' with
      | some l =>
        match intOf 'x' ((d :: ds).take (l + 1)) with
        | some u =>
          if u > 0x10FFFF then
            .error (fail (some "Maximum allowed value for unicode escape sequence is \\u\x7b10FFFF\x7d"))
          else .ok (u, l + 1 + 2)
        | none => .error failNoHex
      | none => .error failNoHex
    | _ => .error failNoHex

/-- The escape at index `i`, after its backslash: what it stands for, and how many more characters it has. -/
def escape (i : Nat) (c : Char) (cs : List Char) : Except Exn (List Char × Nat) :=
  let fail msg := Exn.invalidEscapeSequence c i msg
  match c with
  | 'n' => .ok (['\n'], 0)
  | 'r' => .ok (['\r'], 0)
  | 't' => .ok (['\t'], 0)
  | '"' | '\'' | '\\' => .ok ([c], 0)
  | '0' | '1' | '2' | '3' =>
    match (sub (c :: cs) 3).bind (intOf 'o') with
    | none => .error (fail none)
    | some u =>
      if u > 127 then
        .error (fail (some
          ("Values greater than \\177 are not allowed. Use \\u00" ++ formatHex u.toNat ++ " instead.")))
      else do
        let b ← charOfInt u
        pure ([b], 2)
  | 'x' =>
    let failNoHex := fail (some "Must be followed by a hexadecimal sequence.")
    match sub cs 2 with
    | none => .error failNoHex
    | some hex =>
      match intOf 'x' hex with
      | none => .error failNoHex
      | some u =>
        if u > 127 then
          .error (fail (some
            ("Values greater than \\x7f are not allowed. Use \\u00" ++ String.ofList hex ++ " instead.")))
        else do
          let b ← charOfInt u
          pure ([b], 2)
  | 'u' => do
    let (u, a) ← codePoint fail cs
    if u ≥ 0xD800 ∧ u < 0xE000 then .error (fail (some "UTF-16 surrogates are not allowed in strings."))
    else do
      let u ← ucharOfInt u
      pure (addUchar u, a)
  | _ => .error (fail none)

/-- The loop of `unescape` at index `i`. -/
def loop : Bool → Nat → List Char → Except Exn (List Char)
  | _, _, [] => .ok []
  | true, i, c :: cs => do
    let (b, n) ← escape i c cs
    let l ← loop false (i + 1 + n) (cs.drop n)
    pure (b ++ l)
  | false, i, c :: cs =>
    if c = '\\' then loop true (i + 1) cs
    else do
      let l ← loop false (i + 1) cs
      pure (c :: l)
termination_by _ _ s => s.length
decreasing_by all_goals simp only [List.length_drop, List.length_cons]; omega

def unescape (s : List Char) : Except Exn (List Char) := loop false 0 s

section

variable (i : Nat) (c : Char) (cs : List Char)

@[simp] theorem loop_nil (esc : Bool) : loop esc i [] = .ok [] := by
  rw [loop]

@[simp] theorem loop_backslash : loop false i ('\\' :: cs) = loop true (i + 1) cs := by
  rw [loop, if_pos rfl]

variable {i c cs}

theorem loop_plain (h : c ≠ '\\') : loop false i (c :: cs) = (loop false (i + 1) cs).map (c :: ·) := by
  rw [loop, if_neg h]
  cases loop false (i + 1) cs <;> rfl

theorem loop_escape {b : List Char} {n : Nat} (h : escape i c cs = .ok (b, n)) :
    loop true i (c :: cs) = (loop false (i + 1 + n) (cs.drop n)).map (b ++ ·) := by
  rw [loop, h]
  simp only [bind, Except.bind]
  cases loop false (i + 1 + n) (cs.drop n) <;> rfl

theorem loop_error {e : Exn} (h : escape i c cs = .error e) : loop true i (c :: cs) = .error e := by
  rw [loop, h]
  rfl

end

/-! ## Numbers -/

theorem intOf_hex (s : List Char) :
    intOf 'x' s = (natOfChars 16 s).bind fun n => if n < 2 ^ 63 then some ((n : Int).bmod (2 ^ 63)) else none := by
  simp only [intOf, intOfString, String.toList_ofList]
  rfl

theorem intOf_octal (s : List Char) :
    intOf 'o' s = (natOfChars 8 s).bind fun n => if n < 2 ^ 63 then some ((n : Int).bmod (2 ^ 63)) else none := by
  simp only [intOf, intOfString, String.toList_ofList]
  rfl

/-! ## The round trip -/

/-- The escape of a control character. -/
theorem escape_control (i : Nat) {n : Nat} (hn : n < 32) (cs : List Char) :
    escape i 'x' (upperDigit (n / 16) :: upperDigit (n % 16) :: cs) = .ok ([Char.ofNat n], 2) := by
  have hsub : sub (upperDigit (n / 16) :: upperDigit (n % 16) :: cs) 2 =
      some [upperDigit (n / 16), upperDigit (n % 16)] := by
    simp [sub]
  have hint : intOf 'x' [upperDigit (n / 16), upperDigit (n % 16)] = some (n : Int) := by
    have hdigits : ∀ n < 32, natOfChars 16 [upperDigit (n / 16), upperDigit (n % 16)] = some n := by decide
    have hwrap : (n : Int).bmod (2 ^ 63) = n := Int.bmod_eq_of_le (by omega) (by omega)
    rw [intOf_hex, hdigits n hn, Option.bind_some, if_pos (by omega), hwrap]
  have hbound : ¬ (n : Int) > 127 := by omega
  have hchar : charOfInt (n : Int) = .ok (Char.ofNat n) := by
    rw [charOfInt, if_pos (by omega)]
    rfl
  simp only [escape, hsub, hint, if_neg hbound, hchar]
  rfl

/-- Reading what has been written for a character, whatever follows. -/
theorem loop_escapeChar (hex : Bool) (i : Nat) (c : Char) (cs : List Char) :
    ∃ j, loop false i (escapeChar hex c ++ cs) = (loop false j cs).map (c :: ·) := by
  have hshort : ∀ d : Char, escape (i + 1) d cs = .ok ([c], 0) →
      ∃ j, loop false i ('\\' :: d :: cs) = (loop false j cs).map (c :: ·) := by
    intro d hd
    refine ⟨i + 2, ?_⟩
    rw [loop_backslash, loop_escape hd]
    rfl
  unfold escapeChar
  split
  · exact hshort 'n' rfl
  · exact hshort 't' rfl
  · exact hshort 'r' rfl
  · exact hshort '"' rfl
  · exact hshort '\\' rfl
  · split
    · have hc : c.toNat < 32 := by
        have hand := ‹(decide (c.toNat < 32) && hex) = true›
        rw [Bool.and_eq_true, decide_eq_true_eq] at hand
        exact hand.1
      have hcontrol := escape_control (i + 1) hc cs
      rw [Char.ofNat_toNat] at hcontrol
      refine ⟨i + 4, ?_⟩
      simp only [List.cons_append, List.nil_append]
      rw [loop_backslash, loop_escape hcontrol]
      rfl
    · refine ⟨i + 1, loop_plain ?_⟩
      rintro rfl
      contradiction

theorem loop_sEscape (hex : Bool) (s : List Char) : ∀ i, loop false i (sEscape hex s) = .ok s := by
  induction s with
  | nil => exact fun i => loop_nil i false
  | cons c s ih =>
    intro i
    obtain ⟨j, hj⟩ := loop_escapeChar hex i c (sEscape hex s)
    have hcons : sEscape hex (c :: s) = escapeChar hex c ++ sEscape hex s := List.flatMap_cons
    rw [hcons, hj, ih j]
    rfl

/-- What `s_escape` writes is read back. -/
theorem unescape_sEscape (s : List Char) : unescape (sEscape true s) = .ok s := loop_sEscape true s 0

end EvilHaxe.Escapes
