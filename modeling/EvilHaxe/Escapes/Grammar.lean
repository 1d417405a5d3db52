/-
Which strings `unescape` takes: the documented escapes with the values that it allows, in the strings that do not come
upon a liberty of `int_of_string` or of the scanner.
-/
import EvilHaxe.Escapes.Numerals
import EvilHaxe.Escapes.Unescape

namespace EvilHaxe.Escapes

open EvilHaxe.ParserEntry

/-! ## Pieces -/

/-- A character of its own, or an escape after its backslash. -/
inductive Piece where
  | plain (c : Char)
  | short (c : Char)
  | octal (a b c : Char)
  | hex (a b : Char)
  | unicode (a b c d : Char)
  | codePoint (ds : List Char)

def isSurrogate (n : Nat) : Bool := decide (0xD800 ≤ n ∧ n < 0xE000)

theorem isSurrogate_iff (n : Nat) : isSurrogate n = true ↔ 0xD800 ≤ n ∧ n < 0xE000 := decide_eq_true_iff

namespace Piece

/-- The documented escapes. -/
def Documented : Piece → Prop
  | .plain c => c ≠ '\\'
  | .short c => c ∈ ['n', 'r', 't', '"', '\'', '\\']
  | .octal a b c => a ∈ ['0', '1', '2', '3'] ∧ IsDigit 8 b ∧ IsDigit 8 c
  | .hex a b => IsDigit 16 a ∧ IsDigit 16 b
  | .unicode a b c d => IsDigit 16 a ∧ IsDigit 16 b ∧ IsDigit 16 c ∧ IsDigit 16 d
  | .codePoint ds => 1 ≤ ds.length ∧ ds.length ≤ 6 ∧ (∀ d ∈ ds, IsDigit 16 d) ∧ numeral 16 ds ≤ 0x10FFFF

/-- The values that are allowed: ASCII for a byte, no surrogates. -/
def Allowed : Piece → Prop
  | .plain _ | .short _ => True
  | .octal a b c => numeral 8 [a, b, c] ≤ 127
  | .hex a b => numeral 16 [a, b] ≤ 127
  | .unicode a b c d => isSurrogate (numeral 16 [a, b, c, d]) = false
  | .codePoint ds => isSurrogate (numeral 16 ds) = false

/-- What is written after the backslash, or the character. -/
def tail : Piece → List Char
  | .plain c | .short c => [c]
  | .octal a b c => [a, b, c]
  | .hex a b => ['x', a, b]
  | .unicode a b c d => ['u', a, b, c, d]
  | .codePoint ds => 'u' :: '\x7b' :: (ds ++ ['\x7d'])

def text : Piece → List Char
  | .plain c => [c]
  | p => '\\' :: p.tail

/-- The bytes that a piece stands for. -/
def bytes : Piece → List Char
  | .plain c => [c]
  | .short 'n' => ['\n']
  | .short 'r' => ['\r']
  | .short 't' => ['\t']
  | .short c => [c]
  | .octal a b c => [Char.ofNat (numeral 8 [a, b, c])]
  | .hex a b => [Char.ofNat (numeral 16 [a, b])]
  | .unicode a b c d => addUchar (numeral 16 [a, b, c, d])
  | .codePoint ds => addUchar (numeral 16 ds)

end Piece

/-- A string of documented escapes with allowed values, and the bytes that it denotes. -/
inductive Denotes : List Char → List Char → Prop where
  | nil : Denotes [] []
  | cons {p : Piece} {s b} (hp : p.Documented) (ha : p.Allowed) (h : Denotes s b) : Denotes (p.text ++ s) (p.bytes ++ b)

/-! ## Where the scanner takes more -/

/-- A number that `int_of_string` reads although not all of it are digits. -/
def Loose (base : Nat) (ds : List Char) : Prop := (natOfChars base ds).isSome = true ∧ '_' ∈ ds

/-- What follows a backslash: nothing, a number with separators, or between braces a number that has separators or is
too long, but is not above the highest code point once it is read. -/
def Slip (s : List Char) : Prop :=
  s = [] ∨
  (∃ a b c r, s = a :: b :: c :: r ∧ a ∈ ['0', '1', '2', '3'] ∧ Loose 8 [a, b, c]) ∨
  (∃ a b r, s = 'x' :: a :: b :: r ∧ Loose 16 [a, b]) ∨
  (∃ a b c d r, s = 'u' :: a :: b :: c :: d :: r ∧ Loose 16 [a, b, c, d]) ∨
  (∃ ds r, s = 'u' :: '\x7b' :: (ds ++ '\x7d' :: r) ∧ ('_' ∈ ds ∨ 6 < ds.length) ∧ ∃ u ≤ 0x10FFFF,
    intOf 'x' ds = some u)

/-- No backslash that the scanner reads as one is followed by a slip. -/
def Clear (s : List Char) : Prop :=
  ∀ ps r : List Char, (∃ b, Denotes ps b) → s = ps ++ '\\' :: r → ¬ Slip r

/-! ## Numbers -/

/-- Few digits do not wrap. -/
theorem intOf_digits {base : Nat} {prefixChar : Char}
    (hint : ∀ s, intOf prefixChar s =
      (natOfChars base s).bind fun n => if n < 2 ^ 63 then some ((n : Int).bmod (2 ^ 63)) else none)
    {ds : List Char} (hne : ds ≠ []) (h : ∀ d ∈ ds, IsDigit base d) (hsmall : numeral base ds < 2 ^ 62) :
    intOf prefixChar ds = some (numeral base ds : Int) := by
  have hwrap : (numeral base ds : Int).bmod (2 ^ 63) = numeral base ds := Int.bmod_eq_of_le (by omega) (by omega)
  rw [hint, natOfChars_eq hne h, Option.bind_some, if_pos (by omega), hwrap]

theorem charOfInt_small {n : Nat} (h : n ≤ 127) : charOfInt n = .ok (Char.ofNat n) := by
  rw [charOfInt, if_pos (by omega)]
  rfl

theorem ucharOfInt_small {n : Nat} (h : n < 2 ^ 31) : ucharOfInt n = .ok n := by
  rw [ucharOfInt, if_pos (by omega)]
  rfl

/-! ## One escape -/

section

variable (i : Nat)

/-- What an escape is read as: refused, or a documented one with an allowed value. -/
def Reads (c : Char) (cs : List Char) : Prop :=
  (∃ msg, escape i c cs = .error (.invalidEscapeSequence c i msg)) ∨
    ∃ p : Piece, ∃ r n, p.Documented ∧ p.Allowed ∧ p.text = '\\' :: p.tail ∧ c :: cs = p.tail ++ r ∧ cs.drop n = r ∧
      escape i c cs = .ok (p.bytes, n)

theorem escape_octal {c : Char} (hc : c ∈ ['0', '1', '2', '3']) (cs : List Char) :
    escape i c cs =
      match (sub (c :: cs) 3).bind (intOf 'o') with
      | none => .error (.invalidEscapeSequence c i none)
      | some u =>
        if u > 127 then
          .error (.invalidEscapeSequence c i
            (some ("Values greater than \\177 are not allowed. Use \\u00" ++ formatHex u.toNat ++ " instead.")))
        else (do
          let b ← charOfInt u
          pure ([b], 2)) := by
  simp only [List.mem_cons, List.not_mem_nil, or_false] at hc
  rcases hc with rfl | rfl | rfl | rfl <;> rfl

theorem octal_digits (a b c : Char) (r : List Char) : sub (a :: b :: c :: r) 3 = some [a, b, c] := by
  simp [sub]

/-- The value of three octal digits. -/
theorem escape_octal_digits {a b c : Char} (r : List Char) (h : (Piece.octal a b c).Documented) :
    escape i a (b :: c :: r) =
      if numeral 8 [a, b, c] > 127 then
        .error (.invalidEscapeSequence a i (some ("Values greater than \\177 are not allowed. Use \\u00" ++
          formatHex (numeral 8 [a, b, c]) ++ " instead.")))
      else .ok ([Char.ofNat (numeral 8 [a, b, c])], 2) := by
  obtain ⟨ha, hb, hc⟩ := h
  have hdigits : ∀ d ∈ [a, b, c], IsDigit 8 d := by
    have ha8 : IsDigit 8 a := by
      simp only [List.mem_cons, List.not_mem_nil, or_false] at ha
      rcases ha with rfl | rfl | rfl | rfl <;> rfl
    simp only [List.mem_cons, List.not_mem_nil, or_false]
    rintro d (rfl | rfl | rfl)
    exacts [ha8, hb, hc]
  have hlt : numeral 8 [a, b, c] < 8 ^ 3 := numeral_lt (by decide) _
  have hint := intOf_digits intOf_octal (List.cons_ne_nil _ _) hdigits (by omega)
  rw [escape_octal i ha, octal_digits, Option.bind_some, hint]
  dsimp only
  by_cases hbig : numeral 8 [a, b, c] > 127
  · rw [if_pos (by omega), if_pos hbig, Int.toNat_natCast]
  · rw [if_neg (by omega), if_neg hbig, charOfInt_small (n := numeral 8 [a, b, c]) (by omega)]
    rfl

theorem reads_octal {a : Char} (ha : a ∈ ['0', '1', '2', '3']) (cs : List Char) (h : ¬ Slip (a :: cs)) :
    Reads i a cs := by
  have hrefused : (sub (a :: cs) 3).bind (intOf 'o') = none → Reads i a cs := by
    intro hnone
    refine .inl ⟨none, ?_⟩
    rw [escape_octal i ha, hnone]
  match cs, h with
  | [], _ => exact hrefused rfl
  | [b], _ => exact hrefused rfl
  | b :: c :: r, h =>
    cases hn : natOfChars 8 [a, b, c] with
    | none =>
      apply hrefused
      rw [octal_digits, Option.bind_some, intOf_octal, hn]
      rfl
    | some n =>
      have hsome : (natOfChars 8 [a, b, c]).isSome = true := by rw [hn]; rfl
      have hsep : '_' ∉ [a, b, c] := fun hmem => h (.inr (.inl ⟨a, b, c, r, rfl, ha, hsome, hmem⟩))
      have hdigits := (isDigit_of_natOfChars hsep hsome).2
      have hdoc : (Piece.octal a b c).Documented :=
        ⟨ha, hdigits b (by simp), hdigits c (by simp)⟩
      have hesc := escape_octal_digits i r hdoc
      by_cases hbig : numeral 8 [a, b, c] > 127
      · rw [if_pos hbig] at hesc
        exact .inl ⟨_, hesc⟩
      · rw [if_neg hbig] at hesc
        exact .inr ⟨.octal a b c, r, 2, hdoc, Nat.not_lt.1 hbig, rfl, rfl, rfl, hesc⟩

theorem escape_x (cs : List Char) :
    escape i 'x' cs =
      match sub cs 2 with
      | none => .error (.invalidEscapeSequence 'x' i (some "Must be followed by a hexadecimal sequence."))
      | some hex =>
        match intOf 'x' hex with
        | none => .error (.invalidEscapeSequence 'x' i (some "Must be followed by a hexadecimal sequence."))
        | some u =>
          if u > 127 then
            .error (.invalidEscapeSequence 'x' i (some
              ("Values greater than \\x7f are not allowed. Use \\u00" ++ String.ofList hex ++ " instead.")))
          else (do
            let b ← charOfInt u
            pure ([b], 2)) :=
  rfl

theorem escape_u (cs : List Char) :
    escape i 'u' cs = (do
      let (u, a) ← codePoint (.invalidEscapeSequence 'u' i) cs
      if u ≥ 0xD800 ∧ u < 0xE000 then
        .error (.invalidEscapeSequence 'u' i (some "UTF-16 surrogates are not allowed in strings."))
      else do
        let u ← ucharOfInt u
        pure (addUchar u, a)) :=
  rfl

theorem hex_digits (a b : Char) (r : List Char) : sub (a :: b :: r) 2 = some [a, b] := by
  simp [sub]

/-- The value of two hexadecimal digits. -/
theorem escape_hex_digits {a b : Char} (r : List Char) (h : (Piece.hex a b).Documented) :
    escape i 'x' (a :: b :: r) =
      if numeral 16 [a, b] > 127 then
        .error (.invalidEscapeSequence 'x' i (some ("Values greater than \\x7f are not allowed. Use \\u00" ++
          String.ofList [a, b] ++ " instead.")))
      else .ok ([Char.ofNat (numeral 16 [a, b])], 2) := by
  obtain ⟨ha, hb⟩ := h
  have hdigits : ∀ d ∈ [a, b], IsDigit 16 d := by
    simp only [List.mem_cons, List.not_mem_nil, or_false]
    rintro d (rfl | rfl)
    exacts [ha, hb]
  have hlt : numeral 16 [a, b] < 16 ^ 2 := numeral_lt (by decide) _
  have hint := intOf_digits intOf_hex (List.cons_ne_nil _ _) hdigits (by omega)
  rw [escape_x, hex_digits]
  dsimp only
  rw [hint]
  dsimp only
  by_cases hbig : numeral 16 [a, b] > 127
  · rw [if_pos (by omega), if_pos hbig]
  · rw [if_neg (by omega), if_neg hbig, charOfInt_small (n := numeral 16 [a, b]) (by omega)]
    rfl

theorem reads_hex (cs : List Char) (h : ¬ Slip ('x' :: cs)) : Reads i 'x' cs := by
  match cs, h with
  | [], _ => exact .inl ⟨_, rfl⟩
  | [a], _ => exact .inl ⟨_, rfl⟩
  | a :: b :: r, h =>
    cases hn : natOfChars 16 [a, b] with
    | none =>
      refine .inl ⟨some "Must be followed by a hexadecimal sequence.", ?_⟩
      rw [escape_x, hex_digits]
      dsimp only
      rw [intOf_hex, hn]
      rfl
    | some n =>
      have hsome : (natOfChars 16 [a, b]).isSome = true := by rw [hn]; rfl
      have hsep : '_' ∉ [a, b] := fun hmem => h (.inr (.inr (.inl ⟨a, b, r, rfl, hsome, hmem⟩)))
      have hdigits := (isDigit_of_natOfChars hsep hsome).2
      have hdoc : (Piece.hex a b).Documented := ⟨hdigits a (by simp), hdigits b (by simp)⟩
      have hesc := escape_hex_digits i r hdoc
      by_cases hbig : numeral 16 [a, b] > 127
      · rw [if_pos hbig] at hesc
        exact .inl ⟨_, hesc⟩
      · rw [if_neg hbig] at hesc
        exact .inr ⟨.hex a b, r, 2, hdoc, Nat.not_lt.1 hbig, rfl, rfl, rfl, hesc⟩

/-! ### `\u` -/

/-- How `\u` goes on with the code point. -/
theorem escape_unicode {cs : List Char} {u a : Nat} (hu : u ≤ 0x10FFFF)
    (h : codePoint (.invalidEscapeSequence 'u' i) cs = .ok ((u : Int), a)) :
    escape i 'u' cs =
      if isSurrogate u then
        .error (.invalidEscapeSequence 'u' i (some "UTF-16 surrogates are not allowed in strings."))
      else .ok (addUchar u, a) := by
  have hrange : ((u : Int) ≥ 0xD800 ∧ (u : Int) < 0xE000) ↔ isSurrogate u = true := by
    rw [isSurrogate_iff]
    omega
  have hsmall : u < 2 ^ 31 := by omega
  rw [escape_u, h]
  change (if (u : Int) ≥ 0xD800 ∧ (u : Int) < 0xE000 then _ else _) = _
  by_cases hsur : isSurrogate u = true
  · rw [if_pos hsur, if_pos (hrange.2 hsur)]
  · rw [if_neg hsur, if_neg (mt hrange.1 hsur), ucharOfInt_small hsmall]
    rfl

theorem escape_unicode_error {cs : List Char} {e : Exn} (h : codePoint (.invalidEscapeSequence 'u' i) cs = .error e) :
    escape i 'u' cs = .error e := by
  rw [escape_u, h]
  rfl

theorem reads_of_codePoint {p : Piece} {cs r : List Char} {u a : Nat} (hu : u ≤ 0x10FFFF) (hdoc : p.Documented)
    (hallowed : isSurrogate u = false → p.Allowed) (htext : p.text = '\\' :: p.tail) (hcs : 'u' :: cs = p.tail ++ r)
    (hdrop : cs.drop a = r) (hbytes : p.bytes = addUchar u)
    (h : codePoint (.invalidEscapeSequence 'u' i) cs = .ok ((u : Int), a)) : Reads i 'u' cs := by
  have hesc := escape_unicode i hu h
  cases hsur : isSurrogate u with
  | true =>
    rw [hsur, if_pos rfl] at hesc
    exact .inl ⟨_, hesc⟩
  | false =>
    rw [hsur, if_neg Bool.false_ne_true, ← hbytes] at hesc
    exact .inr ⟨p, r, a, hdoc, hallowed hsur, htext, hcs, hdrop, hesc⟩

/-- The number of four hexadecimal digits. -/
theorem codePoint_digits {fail : Option String → Exn} {a b c d : Char} (r : List Char)
    (h : (Piece.unicode a b c d).Documented) :
    codePoint fail (a :: b :: c :: d :: r) = .ok ((numeral 16 [a, b, c, d] : Int), 4) := by
  obtain ⟨ha, hb, hc, hd⟩ := h
  have hdigits : ∀ x ∈ [a, b, c, d], IsDigit 16 x := by
    simp only [List.mem_cons, List.not_mem_nil, or_false]
    rintro x (rfl | rfl | rfl | rfl)
    exacts [ha, hb, hc, hd]
  have hlt : numeral 16 [a, b, c, d] < 16 ^ 4 := numeral_lt (by decide) _
  have hsub : sub (a :: b :: c :: d :: r) 4 = some [a, b, c, d] := by simp [sub]
  unfold codePoint
  rw [hsub, Option.bind_some, intOf_digits intOf_hex (List.cons_ne_nil _ _) hdigits (by omega)]

/-- A brace is no digit. -/
theorem sub_brace (ds : List Char) : (sub ('\x7b' :: ds) 4).bind (intOf 'x') = none := by
  unfold sub
  split
  · rw [Option.bind_some, intOf_hex]
    rfl
  · rfl

theorem codePoint_brace (fail : Option String → Exn) (d : Char) (ds : List Char) :
    codePoint fail ('\x7b' :: d :: ds) =
      match ds.idxOf? '\x7d' with
      | some l =>
        match intOf 'x' ((d :: ds).take (l + 1)) with
        | some u =>
          if u > 0x10FFFF then
            .error (fail (some "Maximum allowed value for unicode escape sequence is \\u\x7b10FFFF\x7d"))
          else .ok (u, l + 1 + 2)
        | none =>
          .error (fail (some "Must be followed by a hexadecimal sequence enclosed in curly brackets."))
      | none => .error (fail (some "Must be followed by a hexadecimal sequence enclosed in curly brackets.")) := by
  unfold codePoint
  rw [sub_brace]
  rfl

/-- The first brace, and what is on both sides of it. -/
theorem split_brace {c : Char} : ∀ {ds : List Char} {l : Nat}, ds.idxOf? c = some l →
    ds = ds.take l ++ c :: ds.drop (l + 1)
  | [], _, h => by cases h
  | d :: ds, l, h => by
    rw [List.idxOf?_cons] at h
    by_cases hd : d == c
    · rw [if_pos hd] at h
      cases h
      rw [eq_of_beq hd]
      rfl
    · rw [if_neg hd, Option.map_eq_some_iff] at h
      obtain ⟨m, hm, rfl⟩ := h
      have ih := split_brace hm
      simp only [List.take_succ_cons, List.drop_succ_cons, List.cons_append]
      exact congrArg (d :: ·) ih

theorem reads_brace (d : Char) (ds : List Char) (h : ¬ Slip ('u' :: '\x7b' :: d :: ds)) :
    Reads i 'u' ('\x7b' :: d :: ds) := by
  have hpoint := codePoint_brace (.invalidEscapeSequence 'u' i) d ds
  cases hl : ds.idxOf? '\x7d' with
  | none =>
    rw [hl] at hpoint
    exact .inl ⟨_, escape_unicode_error i hpoint⟩
  | some l =>
    rw [hl] at hpoint
    dsimp only at hpoint
    have hsplit : d :: ds = (d :: ds).take (l + 1) ++ '\x7d' :: ds.drop (l + 1) :=
      congrArg (d :: ·) (split_brace hl)
    generalize hcontent : (d :: ds).take (l + 1) = content at hpoint hsplit
    have hlength : content.length = l + 1 := by
      have hlen := congrArg List.length hsplit
      have htake := congrArg List.length hcontent
      rw [List.length_take] at htake
      simp only [List.length_cons, List.length_append, List.length_drop] at hlen htake
      omega
    cases hint : intOf 'x' content with
    | none =>
      rw [hint] at hpoint
      exact .inl ⟨_, escape_unicode_error i hpoint⟩
    | some u =>
      rw [hint] at hpoint
      dsimp only at hpoint
      by_cases hbig : u > 0x10FFFF
      · rw [if_pos hbig] at hpoint
        exact .inl ⟨_, escape_unicode_error i hpoint⟩
      · rw [if_neg hbig] at hpoint
        have hfine : ¬ ('_' ∈ content ∨ 6 < content.length) := fun hslip =>
          h (.inr (.inr (.inr (.inr ⟨content, ds.drop (l + 1), by rw [hsplit], hslip, u, by omega, hint⟩))))
        rw [not_or] at hfine
        have hsome : (natOfChars 16 content).isSome = true := by
          rw [intOf_hex] at hint
          cases hn : natOfChars 16 content with
          | none =>
            rw [hn] at hint
            cases hint
          | some n => rfl
        obtain ⟨hne, hdigits⟩ := isDigit_of_natOfChars hfine.1 hsome
        have hlt : numeral 16 content < 16 ^ 6 :=
          Nat.lt_of_lt_of_le (numeral_lt (by decide) content) (Nat.pow_le_pow_right (by decide) (by omega))
        have hvalue := intOf_digits intOf_hex hne hdigits (by omega)
        rw [hint, Option.some.injEq] at hvalue
        subst hvalue
        have hmax : numeral 16 content ≤ 0x10FFFF := by omega
        refine reads_of_codePoint i (p := .codePoint content) (r := ds.drop (l + 1)) hmax
          ⟨by omega, by omega, hdigits, hmax⟩ id rfl ?_ ?_ rfl hpoint
        · rw [hsplit]
          simp [Piece.tail]
        · rw [hsplit, List.drop_succ_cons, List.drop_append, hlength]
          simp [hlength]

theorem reads_unicode (cs : List Char) (h : ¬ Slip ('u' :: cs)) : Reads i 'u' cs := by
  cases hfour : (sub cs 4).bind (intOf 'x') with
  | some u =>
    match cs, hfour, h with
    | [], hfour, _ | [_], hfour, _ | [_, _], hfour, _ | [_, _, _], hfour, _ => cases hfour
    | a :: b :: c :: d :: r, hfour, h =>
      have hsub : sub (a :: b :: c :: d :: r) 4 = some [a, b, c, d] := by simp [sub]
      rw [hsub, Option.bind_some, intOf_hex] at hfour
      have hsome : (natOfChars 16 [a, b, c, d]).isSome = true := by
        cases hn : natOfChars 16 [a, b, c, d] with
        | none =>
          rw [hn] at hfour
          cases hfour
        | some n => rfl
      have hsep : '_' ∉ [a, b, c, d] := fun hmem =>
        h (.inr (.inr (.inr (.inl ⟨a, b, c, d, r, rfl, hsome, hmem⟩))))
      have hdigits := (isDigit_of_natOfChars hsep hsome).2
      have hdoc : (Piece.unicode a b c d).Documented :=
        ⟨hdigits a (by simp), hdigits b (by simp), hdigits c (by simp), hdigits d (by simp)⟩
      have hlt : numeral 16 [a, b, c, d] < 16 ^ 4 := numeral_lt (by decide) _
      exact reads_of_codePoint i (p := .unicode a b c d) (r := r) (by omega) hdoc id rfl rfl rfl rfl
        (codePoint_digits r hdoc)
  | none =>
    by_cases hbrace : ∃ d ds, cs = '\x7b' :: d :: ds
    · obtain ⟨d, ds, rfl⟩ := hbrace
      exact reads_brace i d ds h
    · refine .inl ⟨some "Must be followed by a hexadecimal sequence enclosed in curly brackets.",
        escape_unicode_error i ?_⟩
      unfold codePoint
      rw [hfour]
      dsimp only
      split
      · exact absurd ⟨_, _, rfl⟩ hbrace
      · rfl

/-- Away from the slips, an escape is refused or it is a documented one. -/
theorem reads_escape (c : Char) (cs : List Char) (h : ¬ Slip (c :: cs)) : Reads i c cs := by
  by_cases hoct : c ∈ ['0', '1', '2', '3']
  · exact reads_octal i hoct cs h
  by_cases hx : c = 'x'
  · subst hx
    exact reads_hex i cs h
  by_cases hu : c = 'u'
  · subst hu
    exact reads_unicode i cs h
  by_cases hshort : c ∈ ['n', 'r', 't', '"', '\'', '\\']
  · refine .inr ⟨.short c, cs, 0, hshort, trivial, rfl, rfl, rfl, ?_⟩
    simp only [List.mem_cons, List.not_mem_nil, or_false] at hshort
    rcases hshort with rfl | rfl | rfl | rfl | rfl | rfl <;> rfl
  · simp only [List.mem_cons, List.not_mem_nil, or_false, not_or] at hoct hshort
    refine .inl ⟨none, ?_⟩
    unfold escape
    split <;> first | rfl | (exfalso; simp_all)

/-! ## Strings -/

theorem brace_not_digit {base : Nat} : ¬ IsDigit base '\x7d' := by
  unfold IsDigit digitBelow
  have hnone : digitValue '\x7d' = none := by decide
  rw [hnone]
  exact Bool.false_ne_true

theorem idxOf?_brace {base : Nat} (s : List Char) : ∀ {ds : List Char}, (∀ d ∈ ds, IsDigit base d) →
    (ds ++ '\x7d' :: s).idxOf? '\x7d' = some ds.length
  | [], _ => by rw [List.nil_append, List.idxOf?_cons, if_pos (beq_self_eq_true _)]; rfl
  | d :: ds, h => by
    have hd : ¬ (d == '\x7d') = true := by
      intro heq
      rw [beq_iff_eq] at heq
      exact brace_not_digit (heq ▸ h d List.mem_cons_self)
    have ih := idxOf?_brace s fun d hd => h d (List.mem_cons_of_mem _ hd)
    rw [List.cons_append, List.idxOf?_cons, if_neg hd, ih]
    rfl

theorem codePoint_documented {fail : Option String → Exn} {ds : List Char} (s : List Char)
    (h : (Piece.codePoint ds).Documented) :
    codePoint fail ('\x7b' :: (ds ++ '\x7d' :: s)) = .ok ((numeral 16 ds : Int), ds.length + 2) := by
  obtain ⟨hpos, hmax, hdigits, hvalue⟩ := h
  cases ds with
  | nil => exact absurd hpos (by decide)
  | cons d ds =>
    have htail : ∀ x ∈ ds, IsDigit 16 x := fun x hx => hdigits x (List.mem_cons_of_mem _ hx)
    have htake : (d :: (ds ++ '\x7d' :: s)).take (ds.length + 1) = d :: ds := by
      rw [List.take_succ_cons, List.take_left']
      rfl
    have hint := intOf_digits intOf_hex (List.cons_ne_nil d ds) hdigits (by omega)
    rw [List.cons_append, codePoint_brace, idxOf?_brace s htail]
    dsimp only
    rw [htake, hint]
    dsimp only
    rw [if_neg (by omega), List.length_cons]

/-- A documented piece is read as itself. -/
theorem loop_piece {p : Piece} (hdoc : p.Documented) (hallowed : p.Allowed) (s : List Char) :
    ∃ j, loop false i (p.text ++ s) = (loop false j s).map (p.bytes ++ ·) := by
  have hescape : ∀ {c : Char} {cs : List Char} {n : Nat}, cs.drop n = s →
      escape (i + 1) c cs = .ok (p.bytes, n) →
      ∃ j, loop false i ('\\' :: c :: cs) = (loop false j s).map (p.bytes ++ ·) := by
    intro c cs n hdrop hesc
    refine ⟨i + 1 + 1 + n, ?_⟩
    rw [loop_backslash, loop_escape hesc, hdrop]
  cases p with
  | plain c => exact ⟨i + 1, loop_plain hdoc⟩
  | short c =>
    refine hescape (n := 0) rfl ?_
    have hc : c ∈ ['n', 'r', 't', '"', '\'', '\\'] := hdoc
    simp only [List.mem_cons, List.not_mem_nil, or_false] at hc
    rcases hc with rfl | rfl | rfl | rfl | rfl | rfl <;> rfl
  | octal a b c =>
    refine hescape (n := 2) rfl ?_
    exact (escape_octal_digits (i + 1) s hdoc).trans (if_neg (Nat.not_lt.2 hallowed))
  | hex a b =>
    refine hescape (n := 2) rfl ?_
    exact (escape_hex_digits (i + 1) s hdoc).trans (if_neg (Nat.not_lt.2 hallowed))
  | unicode a b c d =>
    refine hescape (n := 4) rfl ?_
    have hlt : numeral 16 [a, b, c, d] < 16 ^ 4 := numeral_lt (by decide) _
    have hsur : ¬ isSurrogate (numeral 16 [a, b, c, d]) = true := by
      rw [hallowed]
      exact Bool.false_ne_true
    exact (escape_unicode (i + 1) (by omega) (codePoint_digits s hdoc)).trans (if_neg hsur)
  | codePoint ds =>
    have htext : (Piece.codePoint ds).text ++ s = '\\' :: 'u' :: '\x7b' :: (ds ++ '\x7d' :: s) := by
      simp [Piece.text, Piece.tail]
    have hsur : ¬ isSurrogate (numeral 16 ds) = true := by
      rw [hallowed]
      exact Bool.false_ne_true
    have hdrop : ('\x7b' :: (ds ++ '\x7d' :: s)).drop (ds.length + 2) = s := by
      rw [List.drop_succ_cons, List.drop_append]
      simp
    rw [htext]
    exact hescape hdrop ((escape_unicode (i + 1) hdoc.2.2.2 (codePoint_documented s hdoc)).trans (if_neg hsur))

end

theorem loop_denotes {s b : List Char} (h : Denotes s b) : ∀ i, loop false i s = .ok b := by
  induction h with
  | nil => exact fun i => loop_nil i false
  | cons hdoc hallowed _ ih =>
    intro i
    obtain ⟨j, hj⟩ := loop_piece i hdoc hallowed _
    rw [hj, ih j]
    rfl

theorem Clear.rest {p : Piece} {s : List Char} (h : Clear (p.text ++ s)) (hdoc : p.Documented)
    (hallowed : p.Allowed) : Clear s := by
  rintro ps r ⟨b, hb⟩ rfl
  refine h (p.text ++ ps) r ⟨p.bytes ++ b, .cons hdoc hallowed hb⟩ ?_
  rw [List.append_assoc]

/-- A clear string is refused as an invalid escape sequence, or it denotes what is read. -/
theorem loop_clear (n : Nat) : ∀ (s : List Char), s.length ≤ n → Clear s → ∀ i,
    (∃ c j msg, loop false i s = .error (.invalidEscapeSequence c j msg)) ∨ ∃ b, Denotes s b := by
  induction n with
  | zero =>
    intro s hs _ i
    rw [List.length_eq_zero_iff.1 (Nat.le_zero.1 hs)]
    exact .inr ⟨[], .nil⟩
  | succ n ih =>
    intro s hs hclear i
    -- a first piece and the rest of the string
    have hrest : ∀ {p : Piece} {r : List Char}, p.Documented → p.Allowed → s = p.text ++ r → r.length ≤ n →
        (∃ c j msg, loop false i s = .error (.invalidEscapeSequence c j msg)) ∨ ∃ b, Denotes s b := by
      rintro p r hdoc hallowed rfl hr
      obtain ⟨j, hj⟩ := loop_piece i hdoc hallowed r
      rcases ih r hr (hclear.rest hdoc hallowed) j with ⟨c, k, msg, herr⟩ | ⟨b, hb⟩
      · rw [herr] at hj
        exact .inl ⟨c, k, msg, hj⟩
      · exact .inr ⟨_, .cons hdoc hallowed hb⟩
    cases s with
    | nil => exact .inr ⟨[], .nil⟩
    | cons c s =>
      rw [List.length_cons] at hs
      by_cases hc : c = '\\'
      · subst hc
        have hslip : ¬ Slip s := hclear [] s ⟨[], .nil⟩ rfl
        cases s with
        | nil => exact absurd (.inl rfl) hslip
        | cons d cs =>
          rcases reads_escape (i + 1) d cs hslip with ⟨msg, herr⟩ | ⟨p, r, m, hdoc, hallowed, htext, hcs, hdrop, -⟩
          · exact .inl ⟨d, i + 1, msg, by rw [loop_backslash, loop_error herr]⟩
          · refine hrest (r := r) hdoc hallowed ?_ ?_
            · rw [htext, hcs]
              rfl
            · rw [← hdrop, List.length_drop]
              rw [List.length_cons] at hs
              omega
      · exact hrest (p := .plain c) (r := s) hc trivial rfl (by omega)

/-- Away from the slips, `unescape` accepts exactly the strings of documented escapes with allowed values,
  gives the bytes
that they denote, and raises nothing but `Invalid_escape_sequence` for every other string. -/
theorem unescape_clear {s : List Char} (h : Clear s) :
    (∀ b, unescape s = .ok b ↔ Denotes s b) ∧
      ∀ e, unescape s = .error e → ∃ c i msg, e = .invalidEscapeSequence c i msg := by
  rcases loop_clear s.length s (Nat.le_refl _) h 0 with ⟨c, i, msg, herr⟩ | ⟨b, hb⟩
  · refine ⟨fun b => ⟨fun hok => ?_, fun hb => loop_denotes hb 0⟩, fun e he => ⟨c, i, msg, ?_⟩⟩
    · cases herr.symm.trans hok
    · exact (Except.error.inj (herr.symm.trans he)).symm
  · have hok : unescape s = .ok b := loop_denotes hb 0
    refine ⟨fun b' => ⟨fun hok' => ?_, fun hb' => loop_denotes hb' 0⟩, fun e he => ?_⟩
    · cases hok.symm.trans hok'
      exact hb
    · cases hok.symm.trans he

theorem clear_newline : Clear ['\\', 'n'] := by
  rintro ps r - heq
  cases ps with
  | nil =>
    cases heq
    rintro (h | ⟨a, b, c, r, h, -⟩ | ⟨a, b, r, h, -⟩ | ⟨a, b, c, d, r, h, -⟩ | ⟨ds, r, h, -⟩) <;> cases h
  | cons c ps =>
    cases ps with
    | nil => cases heq
    | cons d ps =>
      have hlen := congrArg List.length heq
      simp only [List.length_cons, List.length_append, List.length_nil] at hlen
      omega

theorem unescape_clear_newline : Denotes ['\\', 'n'] ['\n'] :=
  ((unescape_clear clear_newline).1 ['\n']).1 (loop_denotes (.cons (p := .short 'n') (by simp [Piece.Documented])
    trivial .nil) 0)

/-- A documented octal escape that is refused, a separator that is taken for a digit, and a number that wraps. -/
theorem unescape_departs :
    ((Piece.octal '3' '7' '7').Documented ∧
      unescape ['\\', '3', '7', '7'] = .error (.invalidEscapeSequence '3' 1
        (some "Values greater than \\177 are not allowed. Use \\u00ff instead."))) ∧
    (¬ (Piece.hex '1' '_').Documented ∧ unescape ['\\', 'x', '1', '_'] = .ok ['\x01']) ∧
      unescape ('\\' :: 'u' :: '\x7b' :: '7' :: (List.replicate 15 'f' ++ ['\x7d'])) =
        .error (.invalidArgument "UChar.uint_chr") := by
  refine ⟨⟨⟨by decide, rfl, rfl⟩, ?_⟩, ⟨?_, ?_⟩, ?_⟩
  · unfold unescape
    rw [loop_backslash, loop_error]
    decide
  · rintro ⟨-, h⟩
    exact digit_ne_separator h rfl
  · have hint : intOf 'x' ['1', '_'] = some 1 := by decide
    have hesc : escape 1 'x' ['1', '_'] = .ok (['\x01'], 2) := by
      rw [escape_x, hex_digits]
      dsimp only
      rw [hint]
      rfl
    unfold unescape
    rw [loop_backslash, loop_escape hesc]
    exact congrArg (Except.map _) (loop_nil 4 false)
  · unfold unescape
    rw [loop_backslash, loop_error]
    decide

end EvilHaxe.Escapes
