/-
Integer literals, from the token of `lexer.ml` to the constant that `type_constant` of `texpr.ml` makes of it, for an
expression and for a pattern.
-/
import EvilHaxe.Escapes.Numerals
import EvilHaxe.Matcher.ExprToPattern

namespace EvilHaxe.Literals

open EvilHaxe.ParserEntry EvilHaxe.Escapes EvilHaxe.Matcher EvilHaxe.Matcher.ExprToPattern

/-! ## The lexer -/

/-- `Star (Opt '_', digit)`. -/
inductive SepDigits (base : Nat) : List Char → Prop where
  | nil : SepDigits base []
  | digit {d s} (hd : IsDigit base d) (hs : SepDigits base s) : SepDigits base (d :: s)
  | separated {d s} (hd : IsDigit base d) (hs : SepDigits base s) : SepDigits base ('_' :: d :: s)

/-- `integer`. -/
inductive Integer : List Char → Prop where
  | zero : Integer ['0']
  | digits {d s} (hd : IsDigit 10 d) (h0 : d ≠ '0') (hs : SepDigits 10 s) : Integer (d :: s)

/-- `Plus hex_digits`. -/
inductive HexDigits : List Char → Prop where
  | once {d s} (hd : IsDigit 16 d) (hs : SepDigits 16 s) : HexDigits (d :: s)
  | again {d s r} (hd : IsDigit 16 d) (hs : SepDigits 16 s) (hr : HexDigits r) : HexDigits (d :: s ++ r)

/-- The literal of an integer token. -/
inductive Literal : List Char → Prop where
  | hex {s} (hs : HexDigits s) : Literal ('0' :: 'x' :: s)
  | decimal {s} (hs : Integer s) : Literal s

/-- `Plus integer`. -/
inductive Integers : List Char → Prop where
  | once {s} (hs : Integer s) : Integers s
  | again {s r} (hs : Integer s) (hr : Integers r) : Integers (s ++ r)

/-- `Opt integer_suffix`: what stands before the suffix, and the suffix. -/
inductive Suffix : List Char → Option (List Char) → Prop where
  | none : Suffix [] none
  | suffix {c s} (hc : c = 'i' ∨ c = 'u') (hs : Integers s) : Suffix (c :: s) (some (c :: s))
  | separated {c s} (hc : c = 'i' ∨ c = 'u') (hs : Integers s) : Suffix ('_' :: c :: s) (some (c :: s))

/-- The loop of `split_suffix` for an integer. -/
def pivot : Nat → Option Nat → List Char → Option Nat
  | _, p, [] => p
  | i, p, c :: s => if c = 'i' ∨ c = 'u' then pivot (i + 1) (some i) s else pivot (i + 1) p s

/-- `split_int_suffix`. -/
def splitIntSuffix (s : List Char) : Syntax.Constant :=
  match pivot 0 none s with
  | none => .int (String.ofList s) none
  | some pivot =>
    let literalLength := if s[pivot - 1]? = some '_' then pivot - 1 else pivot
    .int (String.ofList (s.take literalLength)) (some (String.ofList (s.drop pivot)))

/-! ## `type_constant` -/

/-- `Int32.of_string`: a decimal number has to fit with its sign, one with a base wraps. -/
def int32OfString (s : String) : Option Int :=
  let (neg, cs) := match s.toList with
    | '-' :: cs => (true, cs)
    | '+' :: cs => (false, cs)
    | cs => (false, cs)
  let wrapped (base : Nat) (cs : List Char) := do
    let n ← natOfChars base cs
    if n < 2 ^ 32 then some ((if neg then -(n : Int) else n).bmod (2 ^ 32)) else none
  match cs with
  | '0' :: 'x' :: cs | '0' :: 'X' :: cs => wrapped 16 cs
  | '0' :: 'o' :: cs | '0' :: 'O' :: cs => wrapped 8 cs
  | '0' :: 'b' :: cs | '0' :: 'B' :: cs => wrapped 2 cs
  | '0' :: 'u' :: cs | '0' :: 'U' :: cs => wrapped 10 cs
  | cs => do
    let n ← natOfChars 10 cs
    if neg then (if n ≤ 2 ^ 31 then some (-(n : Int)) else none)
    else (if n < 2 ^ 31 then some (n : Int) else none)

/-- `type_constant`. -/
def typeConstant : Syntax.Constant → Except PatternError TConstant
  | .int s _ =>
    if s.length > 10 ∧ s.toList.take 2 = ['0', 'x'] then .error (.error "Invalid hexadecimal integer")
    else match int32OfString s with
      | some n => .ok (.tInt n)
      | none => .ok (.tFloat s)
  | .float f _ => .ok (.tFloat f)
  | .string s _ => .ok (.tString s)
  | .ident "true" => .ok (.tBool true)
  | .ident "false" => .ok (.tBool false)
  | .ident "null" => .ok .tNull
  | .ident t => .error (.error ("Invalid constant :  " ++ t))
  | .regexp _ _ => .error (.error "Invalid constant")

/-- The pattern converter, with this function for constants. -/
def withConstants {Ty : Type} (Γ : Typer Ty) : Typer Ty := { Γ with typeConstant := typeConstant }

/-- `replace_separators s ""`. -/
def removeSeparators (s : String) : String := String.ofList (s.toList.filter (· ≠ '_'))

/-! ## What the literals are -/

theorem HexDigits.sepDigits {s : List Char} (h : HexDigits s) : ∃ d r, s = d :: r ∧ IsDigit 16 d ∧ SepDigits 16 r := by
  have happend : ∀ {s r : List Char}, SepDigits 16 s → SepDigits 16 r → SepDigits 16 (s ++ r) := by
    intro s r hs hr
    induction hs with
    | nil => exact hr
    | digit hd _ ih => exact .digit hd ih
    | separated hd _ ih => exact .separated hd ih
  induction h with
  | once hd hs => exact ⟨_, _, rfl, hd, hs⟩
  | again hd hs _ ih =>
    obtain ⟨d', r', rfl, hd', hr'⟩ := ih
    exact ⟨_, _, rfl, hd, happend hs (.digit hd' hr')⟩

theorem SepDigits.filter {base : Nat} {s : List Char} (h : SepDigits base s) :
    ∀ d ∈ s.filter (· ≠ '_'), IsDigit base d := by
  induction h with
  | nil => exact fun d hd => by cases hd
  | digit hd _ ih =>
    rw [List.filter_cons_of_pos (by simpa using digit_ne_separator hd)]
    intro x hx
    rcases List.mem_cons.1 hx with rfl | hx
    exacts [hd, ih x hx]
  | separated hd _ ih =>
    rw [List.filter_cons_of_neg (by decide), List.filter_cons_of_pos (by simpa using digit_ne_separator hd)]
    intro x hx
    rcases List.mem_cons.1 hx with rfl | hx
    exacts [hd, ih x hx]

/-- Separators do not change what digits denote. -/
theorem natOfChars_filter {base : Nat} {d : Char} (hd : IsDigit base d) (s : List Char) :
    natOfChars base ((d :: s).filter (· ≠ '_')) = natOfChars base (d :: s) := by
  rw [List.filter_cons_of_pos (by simpa using digit_ne_separator hd), natOfChars, natOfChars]
  cases digitBelow base d with
  | none => rfl
  | some v => exact digits_filter base s v

/-! ## The suffix -/

/-- No character starts a suffix. -/
def Plain (s : List Char) : Prop := ∀ c ∈ s, ¬ (c = 'i' ∨ c = 'u')

theorem plain_digit {base : Nat} {d : Char} (h : IsDigit base d) : ¬ (d = 'i' ∨ d = 'u') := by
  unfold IsDigit digitBelow at h
  rintro (rfl | rfl)
  · have hnone : digitValue 'i' = none := by decide
    rw [hnone] at h
    cases h
  · have hnone : digitValue 'u' = none := by decide
    rw [hnone] at h
    cases h

theorem Plain.append {s r : List Char} (hs : Plain s) (hr : Plain r) : Plain (s ++ r) := by
  intro c hc
  rcases List.mem_append.1 hc with h | h
  exacts [hs c h, hr c h]

theorem Plain.cons {c : Char} {s : List Char} (hc : ¬ (c = 'i' ∨ c = 'u')) (hs : Plain s) : Plain (c :: s) := by
  intro x hx
  rcases List.mem_cons.1 hx with rfl | hx
  exacts [hc, hs x hx]

theorem SepDigits.plain {base : Nat} {s : List Char} (h : SepDigits base s) : Plain s := by
  induction h with
  | nil => exact fun c hc => by cases hc
  | digit hd _ ih => exact .cons (plain_digit hd) ih
  | separated hd _ ih => exact .cons (by decide) (.cons (plain_digit hd) ih)

theorem Integer.plain {s : List Char} (h : Integer s) : Plain s := by
  cases h with
  | zero => exact .cons (by decide) fun c hc => by cases hc
  | digits hd _ hs => exact .cons (plain_digit hd) hs.plain

theorem Integers.plain {s : List Char} (h : Integers s) : Plain s := by
  induction h with
  | once hs => exact hs.plain
  | again hs _ ih => exact hs.plain.append ih

theorem Literal.plain {s : List Char} (h : Literal s) : Plain s := by
  cases h with
  | hex hs =>
    obtain ⟨d, r, rfl, hd, hr⟩ := hs.sepDigits
    exact .cons (by decide) (.cons (by decide) (.cons (plain_digit hd) hr.plain))
  | decimal hs => exact hs.plain

theorem pivot_plain {s : List Char} (h : Plain s) : ∀ i p, pivot i p s = p := by
  induction s with
  | nil => exact fun _ _ => rfl
  | cons c s ih =>
    intro i p
    rw [pivot, if_neg (h c List.mem_cons_self)]
    exact ih (fun x hx => h x (List.mem_cons_of_mem _ hx)) _ _

theorem pivot_append (r : List Char) : ∀ (s : List Char) i p, pivot i p (s ++ r) = pivot (i + s.length) (pivot i p s) r
  | [], _, _ => rfl
  | c :: s, i, p => by
    have hlen : i + (c :: s).length = i + 1 + s.length := by
      rw [List.length_cons]
      omega
    rw [List.cons_append, pivot, pivot, hlen]
    split <;> exact pivot_append r s _ _

theorem pivot_suffix {s r : List Char} {c : Char} (hs : Plain s) (hc : c = 'i' ∨ c = 'u') (hr : Plain r) :
    pivot 0 none (s ++ c :: r) = some s.length := by
  rw [pivot_append, pivot_plain hs, pivot, if_pos hc, pivot_plain hr, Nat.zero_add]

/-- The last character of a literal is a digit. -/
theorem SepDigits.getLast {base : Nat} {s : List Char} (h : SepDigits base s) :
    ∀ c, IsDigit base c → ∃ r d, c :: s = r ++ [d] ∧ d ≠ '_' := by
  induction h with
  | nil => exact fun c hc => ⟨[], c, rfl, digit_ne_separator hc⟩
  | digit hd _ ih =>
    intro c _
    obtain ⟨r, d', hr, hd'⟩ := ih _ hd
    exact ⟨c :: r, d', by rw [hr]; rfl, hd'⟩
  | separated hd _ ih =>
    intro c _
    obtain ⟨r, d', hr, hd'⟩ := ih _ hd
    exact ⟨c :: '_' :: r, d', by rw [hr]; rfl, hd'⟩

theorem Literal.getLast {s : List Char} (h : Literal s) : ∃ r d, s = r ++ [d] ∧ d ≠ '_' := by
  cases h with
  | hex hs =>
    obtain ⟨d, r, rfl, hd, hr⟩ := hs.sepDigits
    obtain ⟨r', d', heq, hd'⟩ := hr.getLast d hd
    exact ⟨'0' :: 'x' :: r', d', by rw [heq]; rfl, hd'⟩
  | decimal hs =>
    cases hs with
    | zero => exact ⟨[], '0', rfl, by decide⟩
    | digits hd _ hs => exact hs.getLast _ hd

/-- A token is split where its suffix begins. -/
theorem splitIntSuffix_append {s r : List Char} {suffix : Option (List Char)} (hs : Literal s) (hr : Suffix r suffix) :
    splitIntSuffix (s ++ r) = .int (String.ofList s) (suffix.map String.ofList) := by
  unfold splitIntSuffix
  cases hr with
  | none =>
    rw [List.append_nil, pivot_plain hs.plain]
    rfl
  | @suffix c t hc ht =>
    obtain ⟨q, d, rfl, hd⟩ := hs.getLast
    have hlast : (q ++ [d] ++ c :: t)[(q ++ [d]).length - 1]? = some d := by
      rw [List.length_append, List.length_singleton, Nat.add_sub_cancel,
        List.getElem?_append_left (by rw [List.length_append, List.length_singleton]; omega)]
      exact List.getElem?_concat_length
    rw [pivot_suffix hs.plain hc ht.plain]
    dsimp only
    rw [hlast, if_neg (by rw [Option.some.injEq]; exact hd), List.take_left, List.drop_left]
    rfl
  | @separated c t hc ht =>
    have hassoc : s ++ '_' :: c :: t = (s ++ ['_']) ++ c :: t := by
      rw [List.append_assoc]
      rfl
    have hplain : Plain (s ++ ['_']) := hs.plain.append (.cons (by decide) fun c hc => by cases hc)
    have hlast : (s ++ ['_'] ++ c :: t)[(s ++ ['_']).length - 1]? = some '_' := by
      rw [List.length_append, List.length_singleton, Nat.add_sub_cancel,
        List.getElem?_append_left (by rw [List.length_append, List.length_singleton]; omega)]
      exact List.getElem?_concat_length
    rw [hassoc, pivot_suffix hplain hc ht.plain]
    dsimp only
    rw [hlast, if_pos rfl, List.drop_left, List.length_append, List.length_singleton, Nat.add_sub_cancel,
      List.append_assoc, List.take_left]
    rfl

/-! ## The constant -/

/-- Does a literal begin with `0x`? -/
def isHex (s : List Char) : Bool := s.take 2 == ['0', 'x']

/-- The value of a hexadecimal literal. -/
def hexValue (s : List Char) : Nat := numeral 16 ((s.drop 2).filter (· ≠ '_'))

/-- What is asked of a literal: as an expression and as a pattern it is the integer that it is without its separators,
and if it is hexadecimal, it is an integer exactly when 32 bits hold its value. -/
structure Faithful (s : String) (suffix : Option String) : Prop where
  expression : ∀ n, typeConstant (.int s suffix) = .ok (.tInt n) ↔
    typeConstant (.int (removeSeparators s) suffix) = .ok (.tInt n)
  pattern : ∀ (Ty : Type) (Γ : Typer Ty) fuel pctx t st n,
    (make (withConstants Γ) (fuel + 1) pctx t (.eConst (.int s suffix)) st).1 =
      .ok (.patConstructor (.conConst (.tInt n)) []) ↔
    typeConstant (.int (removeSeparators s) suffix) = .ok (.tInt n)
  fits : isHex s.toList = true → ((∃ n, typeConstant (.int s suffix) = .ok (.tInt n)) ↔ hexValue s.toList < 2 ^ 32)

/-- A constant as a pattern. -/
theorem make_const {Ty : Type} (Γ : Typer Ty) (fuel : Nat) (pctx : PatternContext) (t : Ty) (s : String)
    (suffix : Option String) (st : PatternState) :
    (make (withConstants Γ) (fuel + 1) pctx t (.eConst (.int s suffix)) st).1 =
      (typeConstant (.int s suffix)).map fun c => .patConstructor (.conConst c) [] := by
  change ((liftM (typeConstant (.int s suffix)) >>= fun c => pure (.patConstructor (.conConst c) []) : PatternM
    Pattern) st).1 = _
  cases typeConstant (.int s suffix) <;> rfl

/-- The constant of a pattern is the constant of the expression. -/
theorem make_const_iff {Ty : Type} (Γ : Typer Ty) (fuel : Nat) (pctx : PatternContext) (t : Ty) (s : String)
    (suffix : Option String) (st : PatternState) (n : Int) :
    (make (withConstants Γ) (fuel + 1) pctx t (.eConst (.int s suffix)) st).1 =
      .ok (.patConstructor (.conConst (.tInt n)) []) ↔ typeConstant (.int s suffix) = .ok (.tInt n) := by
  rw [make_const]
  cases typeConstant (.int s suffix) with
  | error e => exact iff_of_false (fun h => by cases h) fun h => by cases h
  | ok c =>
    constructor
    · intro h
      cases h
      rfl
    · intro h
      cases h
      rfl

theorem int32OfString_hex (s : List Char) :
    int32OfString (String.ofList ('0' :: 'x' :: s)) =
      (natOfChars 16 s).bind fun n => if n < 2 ^ 32 then some ((n : Int).bmod (2 ^ 32)) else none := by
  simp only [int32OfString, String.toList_ofList]
  rfl

/-- A literal without a prefix is a decimal number. -/
theorem int32OfString_decimal {d : Char} (hd : IsDigit 10 d) (s : List Char) (h : d = '0' → s = []) :
    int32OfString (String.ofList (d :: s)) =
      (natOfChars 10 (d :: s)).bind fun n => if n < 2 ^ 31 then some (n : Int) else none := by
  by_cases h0 : d = '0'
  · subst h0
    rw [h rfl]
    rfl
  · have hminus : d ≠ '-' := by
      rintro rfl
      cases hd
    have hplus : d ≠ '+' := by
      rintro rfl
      cases hd
    unfold int32OfString
    rw [String.toList_ofList]
    split
    · rename_i heq
      split at heq <;> rename_i hcs <;> cases heq
      · exact absurd (List.cons.inj hcs).1 hminus
      · exact absurd (List.cons.inj hcs).1 hplus
      · dsimp only
        split
        iterate 8
          rename_i hzero
          exact absurd (List.cons.inj hzero).1 h0
        · simp only [Bool.false_eq_true, if_false]
          rfl

/-! ## Both kinds of literals -/

theorem removeSeparators_ofList (s : List Char) :
    removeSeparators (String.ofList s) = String.ofList (s.filter (· ≠ '_')) := by
  rw [removeSeparators, String.toList_ofList]

theorem typeConstant_int (s : String) (suffix : Option String) :
    typeConstant (.int s suffix) =
      if s.length > 10 ∧ s.toList.take 2 = ['0', 'x'] then .error (.error "Invalid hexadecimal integer")
      else match int32OfString s with
        | some n => .ok (.tInt n)
        | none => .ok (.tFloat s) :=
  rfl

/-- A hexadecimal literal is an integer as long as its text is short. -/
theorem typeConstant_hex {d : Char} {s : List Char} (hd : IsDigit 16 d) (hs : SepDigits 16 s) (suffix : Option String)
    (n : Int) :
    typeConstant (.int (String.ofList ('0' :: 'x' :: d :: s)) suffix) = .ok (.tInt n) ↔
      (d :: s).length ≤ 8 ∧ n = (numeral 16 ((d :: s).filter (· ≠ '_')) : Int).bmod (2 ^ 32) := by
  have hfilter : ∀ x ∈ (d :: s).filter (· ≠ '_'), IsDigit 16 x := (SepDigits.digit hd hs).filter
  have hne : (d :: s).filter (· ≠ '_') ≠ [] := by
    rw [List.filter_cons_of_pos (by simpa using digit_ne_separator hd)]
    exact List.cons_ne_nil _ _
  have hnat := (natOfChars_filter hd s).symm.trans (natOfChars_eq hne hfilter)
  have htext : typeConstant (.int (String.ofList ('0' :: 'x' :: d :: s)) suffix) =
      if (d :: s).length > 8 then .error (.error "Invalid hexadecimal integer")
      else match int32OfString (String.ofList ('0' :: 'x' :: d :: s)) with
        | some n => .ok (.tInt n)
        | none => .ok (.tFloat (String.ofList ('0' :: 'x' :: d :: s))) := by
    have hcond : ((String.ofList ('0' :: 'x' :: d :: s)).length > 10 ∧
        (String.ofList ('0' :: 'x' :: d :: s)).toList.take 2 = ['0', 'x']) ↔ (d :: s).length > 8 := by
      rw [String.toList_ofList, String.length_ofList]
      simp only [List.length_cons, List.take_succ_cons, List.take_zero, and_true]
      omega
    exact if_congr hcond rfl rfl
  rw [htext, int32OfString_hex, hnat, Option.bind_some]
  by_cases hlong : (d :: s).length > 8
  · rw [if_pos hlong]
    exact iff_of_false (fun h => by cases h) fun h => Nat.not_lt.2 h.1 hlong
  · have hlength : ((d :: s).filter (· ≠ '_')).length ≤ 8 :=
      Nat.le_trans (List.length_filter_le _ _) (Nat.not_lt.1 hlong)
    have hlt : numeral 16 ((d :: s).filter (· ≠ '_')) < 2 ^ 32 :=
      Nat.lt_of_lt_of_le (numeral_lt (by decide) _) (Nat.pow_le_pow_right (n := 16) (by decide) hlength)
    rw [if_neg hlong, if_pos hlt]
    dsimp only
    rw [Except.ok.injEq, TConstant.tInt.injEq, eq_comm, and_iff_right (Nat.not_lt.1 hlong)]

/-- A decimal literal is the same integer without its separators. -/
theorem typeConstant_decimal {d : Char} {s : List Char} (hd : IsDigit 10 d) (h0 : d = '0' → s = [])
    (suffix : Option String) (n : Int) :
    typeConstant (.int (String.ofList (d :: s)) suffix) = .ok (.tInt n) ↔
      typeConstant (.int (removeSeparators (String.ofList (d :: s))) suffix) = .ok (.tInt n) := by
  have hshort : ∀ r : List Char, (d = '0' → r = []) → (d :: r).take 2 ≠ ['0', 'x'] := by
    intro r hr htake
    have hzero : d = '0' := by
      rw [List.take_succ_cons] at htake
      exact (List.cons.inj htake).1
    rw [hr hzero, hzero] at htake
    exact absurd htake (by decide)
  -- the length of the text does not matter to a decimal literal
  have htext : ∀ r : List Char, (d = '0' → r = []) →
      (typeConstant (.int (String.ofList (d :: r)) suffix) = .ok (.tInt n) ↔
        int32OfString (String.ofList (d :: r)) = some n) := by
    intro r hr
    have hcond : ¬ ((String.ofList (d :: r)).length > 10 ∧ (String.ofList (d :: r)).toList.take 2 = ['0', 'x']) := by
      rw [String.toList_ofList]
      exact fun h => hshort r hr h.2
    rw [typeConstant_int, if_neg hcond]
    cases int32OfString (String.ofList (d :: r)) with
    | none => exact iff_of_false (fun h => by cases h) fun h => by cases h
    | some m =>
      constructor
      · intro h
        cases h
        rfl
      · intro h
        cases h
        rfl
  have hfilter : (d :: s).filter (· ≠ '_') = d :: s.filter (· ≠ '_') :=
    List.filter_cons_of_pos (by simpa using digit_ne_separator hd)
  have hzero : d = '0' → s.filter (· ≠ '_') = [] := fun h => by rw [h0 h]; rfl
  rw [removeSeparators_ofList, hfilter, htext s h0, htext _ hzero, int32OfString_decimal hd s h0,
    int32OfString_decimal hd _ hzero, ← hfilter, natOfChars_filter hd]

theorem sepDigits_of_digits {base : Nat} : ∀ {s : List Char}, (∀ d ∈ s, IsDigit base d) → SepDigits base s
  | [], _ => .nil
  | d :: _, h => .digit (h d List.mem_cons_self) (sepDigits_of_digits fun x hx => h x (List.mem_cons_of_mem _ hx))

/-- A hexadecimal literal without its separators. -/
theorem typeConstant_removeSeparators {d : Char} {s : List Char} (hd : IsDigit 16 d) (hs : SepDigits 16 s)
    (suffix : Option String) (n : Int) :
    typeConstant (.int (removeSeparators (String.ofList ('0' :: 'x' :: d :: s))) suffix) = .ok (.tInt n) ↔
      ((d :: s).filter (· ≠ '_')).length ≤ 8 ∧
        n = (numeral 16 ((d :: s).filter (· ≠ '_')) : Int).bmod (2 ^ 32) := by
  have hcons : (d :: s).filter (· ≠ '_') = d :: s.filter (· ≠ '_') :=
    List.filter_cons_of_pos (by simpa using digit_ne_separator hd)
  have hprefix : ('0' :: 'x' :: d :: s).filter (· ≠ '_') = '0' :: 'x' :: d :: s.filter (· ≠ '_') := by
    rw [List.filter_cons_of_pos (by decide), List.filter_cons_of_pos (by decide), hcons]
  have htwice : (d :: s.filter (· ≠ '_')).filter (· ≠ '_') = d :: s.filter (· ≠ '_') := by
    rw [← hcons, List.filter_filter]
    simp only [Bool.and_self]
  rw [removeSeparators_ofList, hprefix, typeConstant_hex hd (sepDigits_of_digits hs.filter), htwice, hcons]

/-- A token of an integer is read faithfully exactly when it is decimal, or its literal has at most ten characters,
  or 32
bits do not hold its value. -/
theorem faithful_iff {s r : List Char} {suffix : Option (List Char)} (hs : Literal s) (hr : Suffix r suffix) :
    ∃ literal rest, splitIntSuffix (s ++ r) = .int literal rest ∧
      (Faithful literal rest ↔ (isHex s = true → s.length ≤ 10 ∨ 2 ^ 32 ≤ hexValue s)) := by
  refine ⟨_, _, splitIntSuffix_append hs hr, ?_⟩
  generalize suffix.map String.ofList = rest
  cases hs with
  | hex hs =>
    obtain ⟨d, t, rfl, hd, ht⟩ := hs.sepDigits
    have hfilter : ∀ x ∈ (d :: t).filter (· ≠ '_'), IsDigit 16 x := (SepDigits.digit hd ht).filter
    have hvalue : hexValue ('0' :: 'x' :: d :: t) < 16 ^ ((d :: t).filter (· ≠ '_')).length := numeral_lt (by decide) _
    have hlength := List.length_filter_le (· ≠ '_') (d :: t)
    have hhex : isHex ('0' :: 'x' :: d :: t) = true := rfl
    have hshort : ('0' :: 'x' :: d :: t).length ≤ 10 ↔ (d :: t).length ≤ 8 := by
      simp only [List.length_cons]
      omega
    have hsmall : ∀ {k : Nat}, k ≤ 8 → 16 ^ k ≤ 2 ^ 32 := fun hk => Nat.pow_le_pow_right (n := 16) (by decide) hk
    have hexpr := typeConstant_hex hd ht rest
    have hstrip := typeConstant_removeSeparators hd ht rest
    constructor
    · intro h _
      rw [hshort, or_iff_not_imp_left]
      intro hlong
      have hfits := h.fits (by rw [String.toList_ofList]; exact hhex)
      rw [String.toList_ofList] at hfits
      refine Nat.not_lt.1 fun hlt => ?_
      obtain ⟨n, hn⟩ := hfits.2 hlt
      exact hlong ((hexpr n).1 hn).1
    · intro h
      have hcond := h hhex
      rw [hshort] at hcond
      -- the three bounds say the same
      have hboth : (d :: t).length ≤ 8 ↔ ((d :: t).filter (· ≠ '_')).length ≤ 8 := by
        refine ⟨fun hs => Nat.le_trans hlength hs, fun hs => hcond.elim id fun hbig => ?_⟩
        exact absurd (Nat.lt_of_lt_of_le hvalue (hsmall hs)) (Nat.not_lt.2 hbig)
      have hfits : (d :: t).length ≤ 8 ↔ hexValue ('0' :: 'x' :: d :: t) < 2 ^ 32 := by
        refine ⟨fun hs => Nat.lt_of_lt_of_le hvalue (hsmall (hboth.1 hs)), fun hlt => hcond.elim id fun hbig => ?_⟩
        exact absurd hlt (Nat.not_lt.2 hbig)
      have hexpression : ∀ n, typeConstant (.int (String.ofList ('0' :: 'x' :: d :: t)) rest) = .ok (.tInt n) ↔
          typeConstant (.int (removeSeparators (String.ofList ('0' :: 'x' :: d :: t))) rest) = .ok (.tInt n) := by
        intro n
        rw [hexpr, hstrip, hboth]
      refine ⟨hexpression, fun Ty Γ fuel pctx t st n => ?_, fun _ => ?_⟩
      · rw [make_const_iff]
        exact hexpression n
      · rw [String.toList_ofList, ← hfits]
        constructor
        · rintro ⟨n, hn⟩
          exact ((hexpr n).1 hn).1
        · exact fun hs => ⟨_, (hexpr _).2 ⟨hs, rfl⟩⟩
  | decimal hs =>
    have hdecimal : ∃ d t, s = d :: t ∧ IsDigit 10 d ∧ (d = '0' → t = []) := by
      cases hs with
      | zero => exact ⟨'0', [], rfl, rfl, fun _ => rfl⟩
      | @digits d t hd h0 _ => exact ⟨d, t, rfl, hd, fun h => absurd h h0⟩
    obtain ⟨d, t, rfl, hd, h0⟩ := hdecimal
    have hhex : ¬ isHex (d :: t) = true := by
      intro h
      have htake : (d :: t).take 2 = ['0', 'x'] := eq_of_beq h
      rw [List.take_succ_cons] at htake
      have hzero := (List.cons.inj htake).1
      rw [h0 hzero] at htake
      exact absurd (List.cons.inj htake).2 (by decide)
    have hexpression := typeConstant_decimal hd h0 rest
    refine iff_of_true ⟨hexpression, fun Ty Γ fuel pctx t st n => ?_, fun h => ?_⟩ fun h => absurd h hhex
    · rw [make_const_iff]
      exact hexpression n
    · rw [String.toList_ofList] at h
      exact absurd h hhex

theorem faithful_iff_hex :
    ∃ literal rest, splitIntSuffix ['0', 'x', '1', '_', 'F'] = .int literal rest ∧
      (Faithful literal rest ↔ (isHex ['0', 'x', '1', '_', 'F'] = true →
        ['0', 'x', '1', '_', 'F'].length ≤ 10 ∨ 2 ^ 32 ≤ hexValue ['0', 'x', '1', '_', 'F'])) :=
  faithful_iff (.hex (.once (d := '1') rfl (.separated (d := 'F') rfl .nil))) .none

/-- The literal `0x1234_5678` is refused, although `0x12345678` is an integer. -/
theorem separated_refused :
    typeConstant (.int "0x1234_5678" none) = .error (.error "Invalid hexadecimal integer") ∧
      typeConstant (.int (removeSeparators "0x1234_5678") none) = .ok (.tInt 0x12345678) := by
  decide

end EvilHaxe.Literals
