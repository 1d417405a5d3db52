/-
`parse_int` and `parse_float` of `numeric.ml`, which macros parse numbers with. They scan a text by its indices and hand a
part of it to the conversion functions of OCaml, which take the part as a whole or fail.
-/
import EvilHaxe.Numeric.Int64
import Mathlib.Data.List.Infix
import Mathlib.Data.List.TakeWhile

namespace EvilHaxe.Numeric.Macros

def isWhitespace (code : Nat) : Bool := code > 8 && code < 14

def isDigit (c : Char) : Bool := '0' ≤ c && c ≤ '9'

def isHex (c : Char) : Bool := isDigit c || ('a' ≤ c && c ≤ 'f') || ('A' ≤ c && c ≤ 'F')

/-- `String.sub`. -/
def sub (s : Str) (pos len : Nat) : Str := (s.drop pos).take len

/-! ## `parse_int` -/

def loopHex (s : Str) (sp i : Nat) : Str :=
  if h : i < s.length then
    if isHex s[i] then loopHex s sp (i + 1) else sub s sp (i - sp)
  else sub s sp (i - sp)
termination_by s.length - i

def loopDec (s : Str) (sp i : Nat) : Str :=
  if h : i < s.length then
    if isDigit s[i] then loopDec s sp (i + 1) else sub s sp (i - sp)
  else if sp = 0 then s
  else sub s sp (i - sp)
termination_by s.length - i

def handleDigits (s : Str) (sp i : Nat) : Str :=
  if s[i]? = some '0' ∧ (s[i + 1]? = some 'x' ∨ s[i + 1]? = some 'X') then loopHex s sp (i + 2) else loopDec s sp i

def intLoop (s : Str) (sp : Nat) : Str :=
  if h : sp < s.length then
    if s[sp] = ' ' then intLoop s (sp + 1)
    else if s[sp] = '+' then handleDigits s (sp + 1) (sp + 1)
    else if s[sp] = '-' then handleDigits s sp (sp + 1)
    else if isWhitespace s[sp].toNat then intLoop s (sp + 1)
    else handleDigits s sp sp
  else []
termination_by s.length - sp

/-- The value of a digit, up to the base 16. -/
def parseDigit (c : Char) : Option Nat :=
  if '0' ≤ c ∧ c ≤ '9' then some (c.toNat - 48)
  else if 'A' ≤ c ∧ c ≤ 'F' then some (c.toNat - 55)
  else if 'a' ≤ c ∧ c ≤ 'f' then some (c.toNat - 87)
  else none

/-- The base that a text begins with, whether its numerals are signed, and what is behind it. -/
def signedBase (s : Str) : Nat × Bool × Str :=
  if s.head? = some '0' then
    if s[1]? = some 'x' ∨ s[1]? = some 'X' then (16, false, s.drop 2)
    else if s[1]? = some 'o' ∨ s[1]? = some 'O' then (8, false, s.drop 2)
    else if s[1]? = some 'b' ∨ s[1]? = some 'B' then (2, false, s.drop 2)
    else if s[1]? = some 'u' ∨ s[1]? = some 'U' then (10, false, s.drop 2)
    else (10, true, s)
  else (10, true, s)

/-- Digits behind the first one, with underscores between them. -/
def moreDigits (base : Nat) : Nat → Str → Option Nat
  | res, [] => some res
  | res, c :: s =>
    if c = '_' then moreDigits base res s
    else
      match parseDigit c with
      | some d => if d < base then moreDigits base (base * res + d) s else none
      | none => none

def parseDigits (base : Nat) (s : Str) : Option Nat :=
  match s with
  | [] => none
  | c :: s =>
    match parseDigit c with
    | some d => if d < base then moreDigits base d s else none
    | none => none

/-- The 32 bits of a number. -/
def wrap (x : Int) : Int := (x + 2147483648) % 4294967296 - 2147483648

/-- `Int32.of_string`; `none` is its failure. -/
def int32OfString (s : Str) : Option Int := do
  let neg := s.head? = some '-'
  let s := if s.head? = some '-' ∨ s.head? = some '+' then s.tail else s
  let (base, signed, s) := signedBase s
  let res ← parseDigits base s
  if signed then
    if neg then (if res > 2147483648 then none else some (wrap (-res)))
    else if res ≥ 2147483648 then none else some (wrap res)
  else if res ≥ 4294967296 then none
  else some (wrap (if neg then -res else res))

def parseInt (s : Str) : Option Int := int32OfString (intLoop s 0)

/-! ## `parse_float` -/

/-- The characters that the loop goes on at. -/
def isFloatChar (c : Char) : Bool := isDigit c || c = '-' || c = '+' || c = 'e' || c = 'E' || c = '.'

def floatLoop (s : Str) (sp i : Nat) : Str :=
  if h : i < s.length then
    if s[i] = ' ' ∧ sp = i then floatLoop s (sp + 1) (i + 1)
    else if sp = i ∧ isWhitespace s[i].toNat then floatLoop s (sp + 1) (i + 1)
    else if isFloatChar s[i] then floatLoop s sp (i + 1)
    else sub s sp (i - sp)
  else if sp = 0 then s
  else sub s sp (i - sp)
termination_by s.length - i

/-- What may stand before a number. -/
def dropSign (s : Str) : Str := if s.head? = some '-' ∨ s.head? = some '+' then s.tail else s

/-- Nothing, or an exponent: its mark, a sign or none, and digits. -/
def isExponent (s : Str) : Bool :=
  s = [] || ((s.head? = some 'e' || s.head? = some 'E') && dropSign s.tail ≠ [] && (dropSign s.tail).all isDigit)

/-- A decimal floating-point literal: a sign or none, digits with a point before, between or behind them or with none, and
an exponent or none. -/
def isLiteral (s : Str) : Bool :=
  let int := (dropSign s).takeWhile isDigit
  let rest := (dropSign s).dropWhile isDigit
  let frac := if rest.head? = some '.' then rest.tail.takeWhile isDigit else []
  let rest := if rest.head? = some '.' then rest.tail.dropWhile isDigit else rest
  (int ≠ [] || frac ≠ []) && isExponent rest

/-- `float_of_string` of a text without underscores, whose literals have the values `value`. -/
def floatOfString {F : Type} (value : Str → F) (s : Str) : Option F := if isLiteral s then some (value s) else none

def parseFloat {F : Type} (value : Str → F) (s : Str) : Option F := floatOfString value (floatLoop s 0 0)

/-! ## What the two are for -/

def isWhite (c : Char) : Bool := c = ' ' || isWhitespace c.toNat

/-- The number of a row of digits. -/
def numeral (base : Nat) (run : Str) : Nat := run.foldl (fun res c => base * res + (parseDigit c).getD 0) 0

/-- The integer at the start of a text: white space, a sign or none, and the longest row of digits. -/
def integer (s : Str) : Option Int :=
  let t := s.dropWhile isWhite
  let neg := t.head? = some '-'
  let t := dropSign t
  if t.head? = some '0' ∧ (t[1]? = some 'x' ∨ t[1]? = some 'X') then
    let run := (t.drop 2).takeWhile isHex
    if run = [] ∨ numeral 16 run ≥ 4294967296 then none else some (wrap (if neg then -numeral 16 run else numeral 16 run))
  else
    let run := t.takeWhile isDigit
    let v : Int := if neg then -numeral 10 run else numeral 10 run
    if run = [] ∨ v < -2147483648 ∨ v ≥ 2147483648 then none else some v

/-- The longest literal that a text begins with. -/
def Longest (t p : Str) : Prop := p <+: t ∧ isLiteral p = true ∧ ∀ q, q <+: t → isLiteral q = true → q.length ≤ p.length

/-- What follows the white space that a text begins with is converted as far as it is a literal. -/
def ConvertsFloat {F : Type} (value : Str → F) (s : Str) : Prop :=
  (∀ p, Longest (s.dropWhile isWhite) p → parseFloat value s = some (value p)) ∧
    ((∀ p, p <+: s.dropWhile isWhite → isLiteral p = false) → parseFloat value s = none)

/-- Behind the white space, the characters `0` to `9`, `-`, `+`, `e`, `E` and `.` are a literal, or begin with none. -/
def FloatRun (s : Str) : Prop :=
  isLiteral ((s.dropWhile isWhite).takeWhile isFloatChar) = true ∨
    ∀ p ∈ ((s.dropWhile isWhite).takeWhile isFloatChar).inits, isLiteral p = false

/-! The scans of `parse_int` and `parse_float` take what the specification says, `Int32.of_string` reads it, and
`float_of_string` fails on what is no literal although it begins with one. -/

/-! ## The text that a scan takes -/

/-- One more character of a scan. -/
theorem take_scan {s : Str} {sp i : Nat} (h : sp ≤ i) (hi : i < s.length) (r : Str) :
    (s.drop sp).take (i + 1 - sp) ++ r = (s.drop sp).take (i - sp) ++ s[i] :: r := by
  have hn : i - sp < (s.drop sp).length := by
    rw [List.length_drop]
    omega
  have hc : (s.drop sp)[i - sp] = s[i] := by
    rw [List.getElem_drop]
    congr 1
    omega
  rw [show i + 1 - sp = i - sp + 1 by omega, List.take_succ_eq_append_getElem hn, hc, List.append_assoc,
    List.singleton_append]

theorem loopHex_eq (s : Str) (sp i : Nat) (h : sp ≤ i) :
    loopHex s sp i = (s.drop sp).take (i - sp) ++ (s.drop i).takeWhile isHex := by
  induction hn : s.length - i generalizing i with
  | zero =>
    have hi : ¬i < s.length := by omega
    rw [loopHex, dif_neg hi, List.drop_eq_nil_of_le (Nat.le_of_not_lt hi), List.takeWhile_nil, List.append_nil, sub]
  | succ n ih =>
    have hi : i < s.length := by omega
    rw [loopHex, dif_pos hi, List.drop_eq_getElem_cons hi, List.takeWhile_cons]
    split
    · rw [ih (i + 1) (by omega) (by omega), take_scan h hi]
    · rw [List.append_nil, sub]

theorem loopDec_eq (s : Str) (sp i : Nat) (h : sp ≤ i) :
    loopDec s sp i = (s.drop sp).take (i - sp) ++ (s.drop i).takeWhile isDigit := by
  induction hn : s.length - i generalizing i with
  | zero =>
    have hi : ¬i < s.length := by omega
    rw [loopDec, dif_neg hi, List.drop_eq_nil_of_le (Nat.le_of_not_lt hi), List.takeWhile_nil, List.append_nil]
    split
    · next h0 => rw [h0, List.drop_zero, Nat.sub_zero, List.take_of_length_le (Nat.le_of_not_lt hi)]
    · rw [sub]
  | succ n ih =>
    have hi : i < s.length := by omega
    rw [loopDec, dif_pos hi, List.drop_eq_getElem_cons hi, List.takeWhile_cons]
    split
    · rw [ih (i + 1) (by omega) (by omega), take_scan h hi]
    · rw [List.append_nil, sub]

/-! ## `parse_int` -/

/-- A prefix `0x` and the hexadecimal digits behind it, or the decimal digits. -/
def digits (t : Str) : Str :=
  if t.head? = some '0' ∧ (t[1]? = some 'x' ∨ t[1]? = some 'X') then t.take 2 ++ (t.drop 2).takeWhile isHex
  else t.takeWhile isDigit

theorem handleDigits_eq (s : Str) (sp i : Nat) (h : sp ≤ i) :
    handleDigits s sp i = (s.drop sp).take (i - sp) ++ digits (s.drop i) := by
  have h0 : (s.drop i).head? = s[i]? := by rw [List.head?_drop]
  have h1 : (s.drop i)[1]? = s[i + 1]? := List.getElem?_drop
  rw [handleDigits, digits, h0, h1]
  split
  · next hx =>
    have hd : (s.drop sp).drop (i - sp) = s.drop i := by
      rw [List.drop_drop]
      congr 1
      omega
    rw [loopHex_eq s sp (i + 2) (by omega), show i + 2 - sp = i - sp + 2 by omega, List.take_add, hd, List.append_assoc,
      List.drop_drop]
  · exact loopDec_eq s sp i h

theorem isWhite_iff {c : Char} : isWhite c = true ↔ c = ' ' ∨ isWhitespace c.toNat = true := by
  simp [isWhite]

theorem intLoop_eq (s : Str) (sp : Nat) :
    intLoop s sp =
      (if ((s.drop sp).dropWhile isWhite).head? = some '-' then ['-'] else []) ++
        digits (dropSign ((s.drop sp).dropWhile isWhite)) := by
  induction hn : s.length - sp generalizing sp with
  | zero =>
    have hi : ¬sp < s.length := by omega
    rw [intLoop, dif_neg hi, List.drop_eq_nil_of_le (Nat.le_of_not_lt hi)]
    rfl
  | succ n ih =>
    have hi : sp < s.length := by omega
    have hd := List.drop_eq_getElem_cons hi
    have one : (s.drop sp).take (sp + 1 - sp) = [s[sp]] := by
      rw [hd, Nat.add_sub_cancel_left]
      rfl
    rw [intLoop, dif_pos hi, hd, List.dropWhile_cons]
    generalize hc : s[sp] = c at *
    split
    · next h =>
      rw [if_pos (isWhite_iff.2 (.inl h))]
      exact ih (sp + 1) (by omega)
    · next hs =>
      split
      · next h =>
        subst h
        rw [handleDigits_eq s (sp + 1) (sp + 1) (Nat.le_refl _), Nat.sub_self]
        rfl
      · next hp =>
        split
        · next h =>
          subst h
          rw [handleDigits_eq s sp (sp + 1) (by omega), one]
          rfl
        · next hm =>
          split
          · next h =>
            rw [if_pos (isWhite_iff.2 (.inr h))]
            exact ih (sp + 1) (by omega)
          · next h =>
            rw [if_neg (fun hw => (isWhite_iff.1 hw).elim hs h), handleDigits_eq s sp sp (Nat.le_refl _), Nat.sub_self, hd,
              List.head?_cons, if_neg (fun e => hm (Option.some.inj e)), dropSign, List.head?_cons,
              if_neg (fun e => e.elim (fun e => hm (Option.some.inj e)) fun e => hp (Option.some.inj e))]
            rfl

/-! ## `Int32.of_string` -/

theorem le_iff_toNat {a b : Char} : a ≤ b ↔ a.toNat ≤ b.toNat := Char.le_def.trans UInt32.le_iff_toNat_le

theorem isDigit_iff {c : Char} : isDigit c = true ↔ 48 ≤ c.toNat ∧ c.toNat ≤ 57 := by
  simp only [isDigit, Bool.and_eq_true, decide_eq_true_eq, le_iff_toNat]
  rfl

theorem isHex_iff {c : Char} :
    isHex c = true ↔ (48 ≤ c.toNat ∧ c.toNat ≤ 57) ∨ (97 ≤ c.toNat ∧ c.toNat ≤ 102) ∨ (65 ≤ c.toNat ∧ c.toNat ≤ 70) := by
  simp only [isHex, Bool.or_eq_true, isDigit_iff, Bool.and_eq_true, decide_eq_true_eq, le_iff_toNat, or_assoc]
  rfl

/-- A digit of the base, and no underscore. -/
def IsBase (base : Nat) (c : Char) : Prop := c ≠ '_' ∧ ∃ d, parseDigit c = some d ∧ d < base

theorem isBase_digit {c : Char} (h : isDigit c = true) : IsBase 10 c := by
  obtain ⟨h0, h9⟩ := isDigit_iff.1 h
  refine ⟨?_, c.toNat - 48, ?_, by omega⟩
  · rintro rfl
    exact absurd h9 (by decide)
  · rw [parseDigit, if_pos ⟨le_iff_toNat.2 h0, le_iff_toNat.2 h9⟩]

theorem isBase_hex {c : Char} (h : isHex c = true) : IsBase 16 c := by
  have ne : c ≠ '_' := by
    rintro rfl
    revert h
    decide
  refine ⟨ne, ?_⟩
  simp only [parseDigit, le_iff_toNat]
  change ∃ d, (if 48 ≤ c.toNat ∧ c.toNat ≤ 57 then some (c.toNat - 48)
    else if 65 ≤ c.toNat ∧ c.toNat ≤ 70 then some (c.toNat - 55)
    else if 97 ≤ c.toNat ∧ c.toNat ≤ 102 then some (c.toNat - 87) else none) = some d ∧ d < 16
  obtain h | h | h := isHex_iff.1 h
  · exact ⟨_, if_pos h, by omega⟩
  · exact ⟨_, by rw [if_neg (by omega), if_neg (by omega), if_pos h], by omega⟩
  · exact ⟨_, by rw [if_neg (by omega), if_pos h], by omega⟩

theorem moreDigits_eq {base : Nat} {run : Str} (h : ∀ c ∈ run, IsBase base c) (res : Nat) :
    moreDigits base res run = some (run.foldl (fun res c => base * res + (parseDigit c).getD 0) res) := by
  induction run generalizing res with
  | nil => rfl
  | cons c run ih =>
    obtain ⟨ne, d, hd, lt⟩ := h c List.mem_cons_self
    simp only [moreDigits, if_neg ne, hd, if_pos lt, List.foldl_cons, Option.getD_some]
    exact ih (fun c hc => h c (List.mem_cons_of_mem _ hc)) _

theorem parseDigits_eq {base : Nat} {run : Str} (h : ∀ c ∈ run, IsBase base c) :
    parseDigits base run = if run = [] then none else some (numeral base run) := by
  cases run with
  | nil => rfl
  | cons c run =>
    obtain ⟨-, d, hd, lt⟩ := h c List.mem_cons_self
    rw [if_neg (List.cons_ne_nil c run), parseDigits]
    simp only [hd, if_pos lt]
    rw [moreDigits_eq (fun c hc => h c (List.mem_cons_of_mem _ hc)), numeral, List.foldl_cons, hd, Option.getD_some,
      Nat.mul_zero, Nat.zero_add]

theorem all_takeWhile {p : Char → Bool} {t : Str} : ∀ c ∈ t.takeWhile p, p c = true := by
  intro c hc
  exact List.mem_takeWhile_imp hc

/-- Decimal digits name no base. -/
theorem signedBase_digits {run : Str} (h : ∀ c ∈ run, isDigit c = true) : signedBase run = (10, true, run) := by
  have no (c : Char) (hc : isDigit c = false) : run[1]? ≠ some c := fun he =>
    Bool.false_ne_true (hc.symm.trans (h c (List.mem_of_getElem? he)))
  unfold signedBase
  split
  · rw [if_neg (fun e => e.elim (no _ (by decide)) (no _ (by decide))),
      if_neg (fun e => e.elim (no _ (by decide)) (no _ (by decide))),
      if_neg (fun e => e.elim (no _ (by decide)) (no _ (by decide))),
      if_neg (fun e => e.elim (no _ (by decide)) (no _ (by decide)))]
  · rfl

/-- A text of digits has no sign. -/
theorem head_digits (t : Str) : (digits t).head? ≠ some '-' ∧ (digits t).head? ≠ some '+' := by
  rw [digits]
  split
  · next h =>
    cases t with
    | nil => exact absurd h.1 (by decide)
    | cons c t =>
      have hc : c = '0' := Option.some.inj h.1
      subst hc
      constructor <;> exact fun he => absurd (Option.some.inj he) (by decide)
  · have no (c : Char) (hc : isDigit c = false) : (t.takeWhile isDigit).head? ≠ some c := fun he =>
      Bool.false_ne_true (hc.symm.trans (all_takeWhile c (List.mem_of_head? he)))
    exact ⟨no _ (by decide), no _ (by decide)⟩

/-- The sign of a text is found, and taken off. -/
theorem sign_digits (neg : Prop) [Decidable neg] (t : Str) :
    (((if neg then ['-'] else []) ++ digits t).head? = some '-' ↔ neg) ∧
      (if ((if neg then ['-'] else []) ++ digits t).head? = some '-' ∨
          ((if neg then ['-'] else []) ++ digits t).head? = some '+' then
        ((if neg then ['-'] else []) ++ digits t).tail else (if neg then ['-'] else []) ++ digits t) = digits t := by
  obtain ⟨minus, plus⟩ := head_digits t
  by_cases h : neg
  · rw [if_pos h]
    exact ⟨iff_of_true rfl h, if_pos (.inl rfl)⟩
  · rw [if_neg h]
    exact ⟨iff_of_false minus h, if_neg (fun e => e.elim minus plus)⟩

theorem wrap_of_fits {x : Int} (lo : -2147483648 ≤ x) (hi : x < 2147483648) : wrap x = x := by
  rw [wrap, Int.emod_eq_of_lt (by omega) (by omega)]
  omega

theorem parseInt_eq (s : Str) : parseInt s = integer s := by
  rw [parseInt, intLoop_eq s 0, List.drop_zero, integer, int32OfString]
  generalize s.dropWhile isWhite = t
  obtain ⟨hn, ht⟩ := sign_digits (t.head? = some '-') (dropSign t)
  simp only [ht]
  simp only [hn]
  generalize dropSign t = u
  by_cases hx : u.head? = some '0' ∧ (u[1]? = some 'x' ∨ u[1]? = some 'X')
  · rw [if_pos hx]
    have hu : digits u = u.take 2 ++ (u.drop 2).takeWhile isHex := if_pos hx
    have hb : signedBase (digits u) = (16, false, (u.drop 2).takeWhile isHex) := by
      match u, hx with
      | c :: d :: u, ⟨h0, h1⟩ =>
        have hh : (digits (c :: d :: u)).head? = some '0' := by rw [hu]; exact h0
        have hh1 : (digits (c :: d :: u))[1]? = some 'x' ∨ (digits (c :: d :: u))[1]? = some 'X' := by rw [hu]; exact h1
        rw [signedBase, if_pos hh, if_pos hh1, hu]
        rfl
      | [c], ⟨_, h1⟩ => exact absurd h1 (by simp)
      | [], ⟨h0, _⟩ => exact absurd h0 (by simp)
    rw [hb]
    simp only [parseDigits_eq fun c hc => isBase_hex (all_takeWhile c hc)]
    generalize (u.drop 2).takeWhile isHex = run
    by_cases hr : run = []
    · rw [if_pos hr, if_pos (.inl hr)]
      rfl
    · rw [if_neg hr]
      simp only [hr, false_or, Option.bind_eq_bind, Option.bind_some, Bool.false_eq_true, if_false]
  · rw [if_neg hx]
    have hu : digits u = u.takeWhile isDigit := if_neg hx
    rw [hu, signedBase_digits all_takeWhile]
    simp only [parseDigits_eq fun c hc => isBase_digit (all_takeWhile c hc)]
    generalize u.takeWhile isDigit = run
    by_cases hr : run = []
    · rw [if_pos hr, if_pos (.inl hr)]
      rfl
    · rw [if_neg hr]
      simp only [hr, false_or, Option.bind_eq_bind, Option.bind_some, if_true]
      generalize numeral 10 run = n
      by_cases hneg : t.head? = some '-'
      · simp only [hneg, if_true]
        by_cases big : n > 2147483648
        · rw [if_pos big, if_pos (.inl (by omega))]
        · rw [if_neg big, if_neg (by omega), wrap_of_fits (by omega) (by omega)]
      · simp only [hneg, if_false]
        by_cases big : n ≥ 2147483648
        · rw [if_pos big, if_pos (.inr (by omega))]
        · rw [if_neg big, if_neg (by omega), wrap_of_fits (by omega) (by omega)]

/-! ## `parse_float` -/

/-- Behind the first character that is taken. -/
theorem floatLoop_run (s : Str) (sp i : Nat) (h : sp < i) :
    floatLoop s sp i = (s.drop sp).take (i - sp) ++ (s.drop i).takeWhile isFloatChar := by
  induction hn : s.length - i generalizing i with
  | zero =>
    have hi : ¬i < s.length := by omega
    rw [floatLoop, dif_neg hi, List.drop_eq_nil_of_le (Nat.le_of_not_lt hi), List.takeWhile_nil, List.append_nil]
    split
    · next h0 => rw [h0, List.drop_zero, Nat.sub_zero, List.take_of_length_le (Nat.le_of_not_lt hi)]
    · rw [sub]
  | succ n ih =>
    have hi : i < s.length := by omega
    rw [floatLoop, dif_pos hi, List.drop_eq_getElem_cons hi, List.takeWhile_cons, if_neg (by omega), if_neg (by omega)]
    split
    · rw [ih (i + 1) (by omega) (by omega), take_scan (Nat.le_of_lt h) hi]
    · rw [List.append_nil, sub]

theorem floatLoop_eq (s : Str) (i : Nat) : floatLoop s i i = ((s.drop i).dropWhile isWhite).takeWhile isFloatChar := by
  induction hn : s.length - i generalizing i with
  | zero =>
    have hi : ¬i < s.length := by omega
    rw [floatLoop, dif_neg hi, List.drop_eq_nil_of_le (Nat.le_of_not_lt hi)]
    split
    · next h0 =>
      rw [h0] at hi
      exact List.eq_nil_of_length_eq_zero (by omega)
    · rw [sub, Nat.sub_self]
      rfl
  | succ n ih =>
    have hi : i < s.length := by omega
    rw [floatLoop, dif_pos hi, List.drop_eq_getElem_cons hi, List.dropWhile_cons]
    by_cases hw : isWhite s[i] = true
    · rw [if_pos hw, ← ih (i + 1) (by omega)]
      obtain h | h := isWhite_iff.1 hw
      · rw [if_pos ⟨h, rfl⟩]
      · by_cases hb : s[i] = ' '
        · rw [if_pos ⟨hb, rfl⟩]
        · rw [if_neg (fun e => hb e.1), if_pos ⟨rfl, h⟩]
    · rw [if_neg hw, if_neg (fun e => hw (isWhite_iff.2 (.inl e.1))), if_neg (fun e => hw (isWhite_iff.2 (.inr e.2))),
        List.takeWhile_cons]
      split
      · rw [floatLoop_run s i (i + 1) (Nat.lt_succ_self i), List.drop_eq_getElem_cons hi, Nat.add_sub_cancel_left]
        rfl
      · rw [Nat.sub_self, sub, List.take_zero]

theorem parseFloat_eq {F : Type} (value : Str → F) (s : Str) :
    parseFloat value s = floatOfString value ((s.dropWhile isWhite).takeWhile isFloatChar) := by
  rw [parseFloat, floatLoop_eq s 0, List.drop_zero]

/-! ## Literals -/

theorem floatChar_digit {c : Char} (h : isDigit c = true) : isFloatChar c = true := by simp [isFloatChar, h]

theorem floatChar_dropSign {s : Str} (h : ∀ c ∈ dropSign s, isFloatChar c = true) : ∀ c ∈ s, isFloatChar c = true := by
  intro c hc
  rw [dropSign] at h
  cases s with
  | nil => exact absurd hc List.not_mem_nil
  | cons d s =>
    split at h
    · next hs =>
      obtain rfl | hc := List.mem_cons.1 hc
      · obtain e | e := hs
        · obtain rfl := Option.some.inj e
          decide
        · obtain rfl := Option.some.inj e
          decide
      · exact h c hc
    · exact h c hc

theorem floatChar_exponent {s : Str} (h : isExponent s = true) : ∀ c ∈ s, isFloatChar c = true := by
  cases s with
  | nil => exact fun c hc => absurd hc List.not_mem_nil
  | cons d s =>
    simp only [isExponent, List.cons_ne_nil, decide_false, Bool.false_or, List.head?_cons, Option.some.injEq,
      List.tail_cons, Bool.and_eq_true, Bool.or_eq_true, decide_eq_true_eq, List.all_eq_true] at h
    obtain ⟨⟨hd, -⟩, all⟩ := h
    intro c hc
    obtain rfl | hc := List.mem_cons.1 hc
    · obtain rfl | rfl := hd <;> decide
    · exact floatChar_dropSign (fun c hc => floatChar_digit (all c hc)) c hc

theorem floatChar_literal {s : Str} (h : isLiteral s = true) : ∀ c ∈ s, isFloatChar c = true := by
  rw [isLiteral, Bool.and_eq_true] at h
  obtain ⟨-, h⟩ := h
  refine floatChar_dropSign fun c hc => ?_
  rw [← List.takeWhile_append_dropWhile (p := isDigit) (l := dropSign s), List.mem_append] at hc
  obtain hc | hc := hc
  · exact floatChar_digit (all_takeWhile c hc)
  · generalize (dropSign s).dropWhile isDigit = rest at h hc
    cases rest with
    | nil => exact absurd hc List.not_mem_nil
    | cons d rest =>
      by_cases hd : d = '.'
      · subst hd
        rw [List.head?_cons, if_pos rfl, List.tail_cons] at h
        obtain rfl | hc := List.mem_cons.1 hc
        · decide
        rw [← List.takeWhile_append_dropWhile (p := isDigit) (l := rest), List.mem_append] at hc
        obtain hc | hc := hc
        · exact floatChar_digit (all_takeWhile c hc)
        · exact floatChar_exponent h c hc
      · rw [List.head?_cons, if_neg (fun e => hd (Option.some.inj e))] at h
        exact floatChar_exponent h c hc

/-- A literal that a text begins with ends within the characters that the loop takes. -/
theorem literal_in_run {t p : Str} (hp : p <+: t) (hl : isLiteral p = true) : p <+: t.takeWhile isFloatChar := by
  obtain ⟨r, rfl⟩ := hp
  rw [List.takeWhile_append_of_pos (floatChar_literal hl)]
  exact List.prefix_append p _

/-- Of the prefixes that are literals, one is the longest. -/
theorem exists_longest {t q : Str} (hq : q <+: t) (hl : isLiteral q = true) : ∃ p, Longest t p := by
  by_cases h : ∃ p, p <+: t ∧ isLiteral p = true ∧ q.length < p.length
  · obtain ⟨p, hp, hpl, lt⟩ := h
    have hle := hp.length_le
    exact exists_longest hp hpl
  · exact ⟨q, hq, hl, fun p hp hpl => Nat.le_of_not_lt fun lt => h ⟨p, hp, hpl, lt⟩⟩
termination_by t.length - q.length

theorem parseFloat_iff {F : Type} (value : Str → F) (s : Str) : ConvertsFloat value s ↔ FloatRun s := by
  rw [ConvertsFloat, FloatRun, parseFloat_eq, floatOfString]
  generalize s.dropWhile isWhite = t
  constructor
  · rintro ⟨longest, -⟩
    by_cases h : ∃ q, q <+: t ∧ isLiteral q = true
    · obtain ⟨q, hq, hl⟩ := h
      obtain ⟨p, hp⟩ := exists_longest hq hl
      have hv := longest p hp
      refine Or.inl ?_
      by_contra hr
      rw [if_neg hr] at hv
      exact absurd hv (by simp)
    · refine Or.inr fun p hp => Bool.eq_false_iff.2 fun hl => h ⟨p, ?_, hl⟩
      exact ((List.mem_inits _ _).1 hp).trans (List.takeWhile_prefix _)
  · rintro (hl | none)
    · constructor
      · rintro p ⟨hp, hpl, longest⟩
        have le := longest _ (List.takeWhile_prefix _) hl
        rw [if_pos hl, (literal_in_run hp hpl).eq_of_length_le le]
      · intro no
        exact absurd ((no _ (List.takeWhile_prefix _)).symm.trans hl) Bool.false_ne_true
    · constructor
      · rintro p ⟨hp, hpl, -⟩
        have h := none p ((List.mem_inits _ _).2 (literal_in_run hp hpl))
        exact absurd (h.symm.trans hpl) Bool.false_ne_true
      · intro _
        rw [if_neg (Bool.eq_false_iff.1 (none _ ((List.mem_inits _ _).2 List.prefix_rfl)))]

/-- `parse_int` is the integer at the start of every text. `parse_float` is the number at the start of those texts whose
row of digits, signs, points and exponent marks is a number as a whole, or begins with none. -/
theorem numbers_iff {F : Type} (value : Str → F) (s : Str) :
    parseInt s = integer s ∧ ConvertsFloat value s ↔ FloatRun s :=
  ⟨fun h => (parseFloat_iff value s).1 h.2, fun h => ⟨parseInt_eq s, (parseFloat_iff value s).2 h⟩⟩

/-- Of `1-2` the number 1 could be read, as `parse_int` does. -/
theorem parseFloat_fails :
    ¬ConvertsFloat (fun p => p) ['1', '-', '2'] ∧ parseFloat (fun p => p) ['1', '-', '2'] = none ∧
      parseInt ['1', '-', '2'] = some 1 := by
  refine ⟨fun h => ?_, ?_, ?_⟩
  · exact absurd ((parseFloat_iff _ _).1 h) (by rw [FloatRun]; decide)
  · rw [parseFloat_eq]
    decide
  · rw [parseInt_eq]
    decide

end EvilHaxe.Numeric.Macros
