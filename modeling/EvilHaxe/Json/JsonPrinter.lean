/-
`haxe.format.JsonPrinter` without a replacer, on the targets whose strings need no care of their own: what `write`
appends to the buffer, and the depth it leaves.
-/
import EvilHaxe.Json.JsonParser
import Mathlib.Data.Nat.Digits.Defs
import EvilHaxe.Json.Conformance
import Mathlib.Data.Nat.Digits.Lemmas

namespace EvilHaxe.Json

variable {F : Type}

/-! ## The target -/

/-- `StringTools.lpad` -/
def lpadLoop (c : Str) (l : Nat) (buf : Str) : Str :=
  if buf.length < l ∧ 0 < c.length then lpadLoop c l (buf ++ c) else buf
termination_by l - buf.length
decreasing_by simp only [List.length_append]; omega

def lpad (s c : Str) (l : Nat) : Str :=
  if c.length = 0 then s else lpadLoop c (l - s.length) [] ++ s

def natText (n : Nat) : Str :=
  if n = 0 then ['0'.toNat] else (Nat.digits 10 n).reverse.map (· + '0'.toNat)

/-- `Std.string` of an `Int`. -/
def intText (i : Int) : Str :=
  if i < 0 then '-'.toNat :: natText i.natAbs else natText i.natAbs

/-- The fields of the printer that do not change, and what it uses of the target. -/
structure JsonPrinter (F : Type) where
  space : Option Str
  isFinite : F → Bool
  floatText : F → Str

def Dynamic.isFunction : Dynamic F → Bool
  | .func => true
  | _ => false

namespace JsonPrinter

/-! ## Strings -/

def quoteChar (c : Nat) : Str :=
  if c = '"'.toNat then ['\\'.toNat, '"'.toNat]
  else if c = '\\'.toNat then ['\\'.toNat, '\\'.toNat]
  else if c = '\n'.toNat then ['\\'.toNat, 'n'.toNat]
  else if c = '\r'.toNat then ['\\'.toNat, 'r'.toNat]
  else if c = '\t'.toNat then ['\\'.toNat, 't'.toNat]
  else if c = 8 then ['\\'.toNat, 'b'.toNat]
  else if c = 12 then ['\\'.toNat, 'f'.toNat]
  else [c]

def quote (s : Str) : Str := '"'.toNat :: (s.flatMap quoteChar ++ ['"'.toNat])

/-! ## Values -/

variable (P : JsonPrinter F)

def ipad (nind : Nat) : Str :=
  match P.space with
  | some indent => lpad [] indent (nind * indent.length)
  | none => []

def newl : Str := if P.space.isSome then ['\n'.toNat] else []

/-- What follows the colon. -/
def colonSpace : Str := if P.space.isSome then [' '.toNat] else []

mutual

def write (nind : Nat) : Dynamic F → Str × Nat
  | .unknown => (['"'.toNat, '?'.toNat, '?'.toNat, '?'.toNat, '"'.toNat], nind)
  | .obj fields | .map fields | .inst fields =>
    let (s, nind) := writeFields nind true fields
    ('\x7b'.toNat :: (s ++ ['\x7d'.toNat]), nind)
  | .int i => (intText i, nind)
  | .float f => (if P.isFinite f then P.floatText f else ['n'.toNat, 'u'.toNat, 'l'.toNat, 'l'.toNat], nind)
  | .func => (['"'.toNat, '<'.toNat, 'f'.toNat, 'u'.toNat, 'n'.toNat, '>'.toNat, '"'.toNat], nind)
  | .str s => (quote s, nind)
  | .arr items =>
    let (s, nind) := writeItems nind true items
    ('['.toNat :: (s ++ [']'.toNat]), nind)
  | .date text => (quote text, nind)
  | .enum index => (natText index, nind)
  | .bool true => (['t'.toNat, 'r'.toNat, 'u'.toNat, 'e'.toNat], nind)
  | .bool false => (['f'.toNat, 'a'.toNat, 'l'.toNat, 's'.toNat, 'e'.toNat], nind)
  | .null => (['n'.toNat, 'u'.toNat, 'l'.toNat, 'l'.toNat], nind)

/-- The loop over the items from some item on. `first` tells whether it is the first of the array. -/
def writeItems (nind : Nat) (first : Bool) : List (Dynamic F) → Str × Nat
  | [] => ([], nind)
  | v :: rest =>
    let comma := if first then [] else [','.toNat]
    let nind := if first then nind + 1 else nind
    let before := P.newl ++ P.ipad nind
    let (s, nind) := write nind v
    let nind := if rest.isEmpty then nind - 1 else nind
    let after := if rest.isEmpty then P.newl ++ P.ipad nind else []
    let (s', nind) := writeItems nind false rest
    (comma ++ (before ++ (s ++ (after ++ s'))), nind)

/-- A field that holds a function is passed over, with what is due after the last field. -/
def writeFields (nind : Nat) (first : Bool) : List (Str × Dynamic F) → Str × Nat
  | [] => ([], nind)
  | (name, v) :: rest =>
    if v.isFunction then writeFields nind first rest
    else
      let comma := if first then [] else [','.toNat]
      let nind := if first then nind + 1 else nind
      let before := P.newl ++ P.ipad nind
      let (s, nind) := write nind v
      let nind := if rest.isEmpty then nind - 1 else nind
      let after := if rest.isEmpty then P.newl ++ P.ipad nind else []
      let (s', nind) := writeFields nind false rest
      (comma ++ (before ++ (quote name ++ (':'.toNat :: (P.colonSpace ++ (s ++ (after ++ s')))))), nind)

end

def print (v : Dynamic F) : Str := (P.write 0 v).1

end JsonPrinter

end EvilHaxe.Json

/-! The text that the printer writes of a value without floats and functions is the text of a tree, and the parser reads
the value back from it. -/

namespace EvilHaxe.Json

variable {F : Type} {T : Target F}

/-! ## The values -/

mutual

/-- Built from null, booleans, 32-bit integers, strings, arrays and anonymous structures. -/
def Plain : Dynamic F → Prop
  | .null | .bool _ | .str _ => True
  | .int i => -2 ^ 31 ≤ i ∧ i < 2 ^ 31
  | .arr items => PlainItems items
  | .obj fields => PlainFields fields ∧ (fields.map Prod.fst).Nodup
  | .float _ | .map _ | .inst _ | .date _ | .func | .enum _ | .unknown => False

def PlainItems : List (Dynamic F) → Prop
  | [] => True
  | v :: rest => Plain v ∧ PlainItems rest

def PlainFields : List (Str × Dynamic F) → Prop
  | [] => True
  | (_, v) :: rest => Plain v ∧ PlainFields rest

end

/-- Of the control characters it has only those that the printer escapes. -/
def CleanString (s : Str) : Prop := ∀ c ∈ s, 0x20 ≤ c ∨ c = 8 ∨ c = 9 ∨ c = 10 ∨ c = 12 ∨ c = 13

mutual

/-- Every string of the value is clean, and every name of a field. -/
def Clean : Dynamic F → Prop
  | .str s | .date s => CleanString s
  | .arr items => CleanItems items
  | .obj fields | .map fields | .inst fields => CleanFields fields
  | .null | .bool _ | .int _ | .float _ | .func | .enum _ | .unknown => True

def CleanItems : List (Dynamic F) → Prop
  | [] => True
  | v :: rest => Clean v ∧ CleanItems rest

def CleanFields : List (Str × Dynamic F) → Prop
  | [] => True
  | (name, v) :: rest => CleanString name ∧ Clean v ∧ CleanFields rest

end

/-! ## The tree of a value -/

/-- How the printer writes a character of a string. -/
def charPiece (c : Nat) : Piece :=
  if c = '"'.toNat then .escape '"'.toNat
  else if c = '\\'.toNat then .escape '\\'.toNat
  else if c = '\n'.toNat then .escape 'n'.toNat
  else if c = '\r'.toNat then .escape 'r'.toNat
  else if c = '\t'.toNat then .escape 't'.toNat
  else if c = 8 then .escape 'b'.toNat
  else if c = 12 then .escape 'f'.toNat
  else .raw c

namespace JsonPrinter

variable (P : JsonPrinter F)

def beforeItem (nind : Nat) : Str := P.newl ++ P.ipad nind

/-- What follows an item: the indentation of the bracket, after the last one. -/
def afterItem (nind : Nat) (last : Bool) : Str := if last then P.beforeItem nind else []

mutual

def tree (nind : Nat) : Dynamic F → Cst
  | .bool b => .bool b
  | .int i => .num (intText i)
  | .str s => .str (s.map charPiece)
  | .arr [] => .emptyArr []
  | .arr (v :: rest) =>
    .arr (P.beforeItem (nind + 1)) (tree (nind + 1) v) (P.afterItem nind rest.isEmpty) (items nind rest)
  | .obj [] => .emptyObj []
  | .obj ((name, v) :: rest) =>
    .obj (P.beforeItem (nind + 1)) (name.map charPiece) [] P.colonSpace (tree (nind + 1) v)
      (P.afterItem nind rest.isEmpty) (members nind rest)
  | _ => .null

def items (nind : Nat) : List (Dynamic F) → Items
  | [] => .nil
  | v :: rest =>
    .cons (P.beforeItem (nind + 1)) (tree (nind + 1) v) (P.afterItem nind rest.isEmpty) (items nind rest)

def members (nind : Nat) : List (Str × Dynamic F) → Members
  | [] => .nil
  | (name, v) :: rest =>
    .cons (P.beforeItem (nind + 1)) (name.map charPiece) [] P.colonSpace (tree (nind + 1) v)
      (P.afterItem nind rest.isEmpty) (members nind rest)

end

/-! ## The text is the text of the tree -/

theorem render_charPiece (c : Nat) : (charPiece c).render = quoteChar c := by
  unfold charPiece quoteChar
  split_ifs <;> rfl

theorem quote_eq (s : Str) : quote s = renderString (s.map charPiece) := by
  have h : s.flatMap quoteChar = renderPieces (s.map charPiece) := by
    induction s with
    | nil => rfl
    | cons c s ih => rw [List.flatMap_cons, List.map_cons, renderPieces_cons, render_charPiece, ih]
  rw [quote, renderString, h]

theorem isFunction_plain {v : Dynamic F} (h : Plain v) : v.isFunction = false := by
  cases v <;> first | rfl | cases h

theorem after_eq (nind : Nat) (last : Bool) :
    (if last = true then P.newl ++ P.ipad (if last = true then nind else nind + 1) else []) =
      P.afterItem nind last := by
  cases last <;> rfl

mutual

theorem write_tree : ∀ (v : Dynamic F) (nind : Nat), Plain v → P.write nind v = ((P.tree nind v).render, nind)
  | .null, _, _ => rfl
  | .bool true, _, _ => rfl
  | .bool false, _, _ => rfl
  | .int _, _, _ => rfl
  | .str s, nind, _ => by rw [write, tree, Cst.render, quote_eq]
  | .arr [], _, _ => rfl
  | .arr (v :: rest), nind, ⟨hv, hi⟩ => by
    have h := writeItems_items rest nind hi
    rw [write, writeItems]
    simp only [if_true, write_tree v (nind + 1) hv, Nat.add_sub_cancel, h, after_eq]
    simp [tree, Cst.render, beforeItem]
  | .obj [], _, _ => rfl
  | .obj ((name, v) :: rest), nind, ⟨⟨hv, hm⟩, _⟩ => by
    have h := writeFields_members rest nind hm
    rw [write, writeFields]
    simp only [isFunction_plain hv, Bool.false_eq_true, if_false, if_true, write_tree v (nind + 1) hv,
      Nat.add_sub_cancel, h, after_eq]
    simp [tree, Cst.render, beforeItem, quote_eq]

theorem writeItems_items : ∀ (rest : List (Dynamic F)) (nind : Nat), PlainItems rest →
    P.writeItems (if rest.isEmpty then nind else nind + 1) false rest = ((P.items nind rest).render, nind)
  | [], _, _ => rfl
  | v :: rest, nind, ⟨hv, hi⟩ => by
    have h := writeItems_items rest nind hi
    rw [writeItems]
    simp only [List.isEmpty_cons, Bool.false_eq_true, if_false, write_tree v (nind + 1) hv, Nat.add_sub_cancel, h,
      after_eq]
    simp [items, Items.render, beforeItem]

theorem writeFields_members : ∀ (rest : List (Str × Dynamic F)) (nind : Nat), PlainFields rest →
    P.writeFields (if rest.isEmpty then nind else nind + 1) false rest = ((P.members nind rest).render, nind)
  | [], _, _ => rfl
  | (name, v) :: rest, nind, ⟨hv, hm⟩ => by
    have h := writeFields_members rest nind hm
    rw [writeFields]
    simp only [isFunction_plain hv, List.isEmpty_cons, Bool.false_eq_true, if_false, write_tree v (nind + 1) hv,
      Nat.add_sub_cancel, h, after_eq]
    simp [members, Members.render, beforeItem, quote_eq]

end

end JsonPrinter

/-! ## The value is the value of the tree -/

theorem read_charPiece {st : StringState} (h : st.prev = none) (c : Nat) :
    (st.read T (charPiece c)).content = st.content ++ [c] ∧ (st.read T (charPiece c)).prev = none := by
  have escaped : ∀ {e : Nat}, StringState.unescape e = some c →
      (st.read T (.escape e)).content = st.content ++ [c] ∧ (st.read T (.escape e)).prev = none := by
    intro e he
    simp only [StringState.read, he, Option.getD_some]
    exact StringState.content_escape h c
  unfold charPiece
  split_ifs with h1 h2 h3 h4 h5 h6 h7
  · exact escaped (by subst h1; rfl)
  · exact escaped (by subst h2; rfl)
  · exact escaped (by subst h3; rfl)
  · exact escaped (by subst h4; rfl)
  · exact escaped (by subst h5; rfl)
  · exact escaped (by subst h6; rfl)
  · exact escaped (by subst h7; rfl)
  · exact ⟨StringState.content_raw st c, h⟩

theorem stringValue_charPieces (s : Str) : stringValue T (s.map charPiece) = s := by
  have h : ∀ st : StringState, st.prev = none →
      (st.readAll T (s.map charPiece)).content = st.content ++ s ∧ (st.readAll T (s.map charPiece)).prev = none := by
    induction s with
    | nil => intro st h; simp [h]
    | cons c s ih =>
      intro st h
      obtain ⟨h1, h2⟩ := read_charPiece (T := T) h c
      obtain ⟨h3, h4⟩ := ih _ h2
      rw [List.map_cons, StringState.readAll_cons]
      refine ⟨?_, h4⟩
      rw [h3, h1, List.append_assoc]
      rfl
  obtain ⟨h1, h2⟩ := h StringState.start rfl
  rw [stringValue, StringState.result_content h2, h1]
  rfl

/-- What is asked of the target: a 32-bit integer is read back as the float that it converts to. -/
structure IntLaws (T : Target F) : Prop where
  parseFloat : ∀ i : Int, -2 ^ 31 ≤ i → i < 2 ^ 31 → T.parseFloat (intText i) = T.ofInt i
  int : ∀ i : Int, -2 ^ 31 ≤ i → i < 2 ^ 31 → T.int (T.ofInt i) = i
  eq : ∀ i : Int, -2 ^ 31 ≤ i → i < 2 ^ 31 → T.eq (T.ofInt i) (T.ofInt i) = true

theorem isDigit_add {d : Nat} (h : d < 10) : isDigit (d + '0'.toNat) = true := by
  simp only [isDigit, Bool.and_eq_true, decide_eq_true_eq, Char.reduceToNat]
  omega

theorem natText_intPart (n : Nat) : IntPart (natText n) := by
  unfold natText
  split_ifs with h0
  · exact Or.inl rfl
  · have hne : Nat.digits 10 n ≠ [] := Nat.digits_ne_nil_iff_ne_zero.mpr h0
    have hlast := Nat.getLast_digit_ne_zero 10 h0
    have hlt : ∀ d ∈ Nat.digits 10 n, d < 10 := fun d hd => Nat.digits_lt_base (by omega) hd
    rcases List.eq_nil_or_concat (Nat.digits 10 n) with h | ⟨l, d, h⟩
    · exact absurd h hne
    · rw [List.concat_eq_append] at h
      simp only [h, List.getLast_append_singleton] at hlast
      rw [h] at hlt ⊢
      refine Or.inr ⟨d + '0'.toNat, l.reverse.map (· + '0'.toNat), by simp, isDigit_add (hlt d (by simp)), ?_, ?_⟩
      · simp only [Char.reduceToNat]
        omega
      · intro x hx
        obtain ⟨e, he, rfl⟩ := List.mem_map.mp hx
        exact isDigit_add (hlt e (by simp at he; simp [he]))

theorem intText_parts (i : Int) : ∃ minus int, MinusPart minus ∧ IntPart int ∧ intText i = minus ++ int := by
  unfold intText
  split_ifs
  · exact ⟨['-'.toNat], _, Or.inr rfl, natText_intPart _, rfl⟩
  · exact ⟨[], _, Or.inl rfl, natText_intPart _, rfl⟩

theorem intText_value (laws : IntLaws T) {i : Int} (h : -2 ^ 31 ≤ i ∧ i < 2 ^ 31) :
    (Cst.num (intText i)).value T = .int i := by
  have hp : '.'.toNat ∉ intText i := by
    obtain ⟨minus, int, hm, hi, e⟩ := intText_parts i
    rw [e, List.mem_append, not_or]
    exact ⟨NumberState.notMem_minusPart hm, NumberState.notMem_intPart hi⟩
  simp only [Cst.value, numberValue, decide_eq_false hp, laws.parseFloat i h.1 h.2, laws.int i h.1 h.2,
    laws.eq i h.1 h.2, Bool.false_eq_true, if_false, if_true]

theorem setField_new {fields : List (Str × Dynamic F)} {name : Str} (h : name ∉ fields.map Prod.fst) (v : Dynamic F) :
    setField fields name v = fields ++ [(name, v)] := by
  induction fields with
  | nil => rfl
  | cons f fields ih =>
    obtain ⟨k, w⟩ := f
    simp only [List.map_cons, List.mem_cons, not_or] at h
    rw [setField, if_neg (fun e => h.1 e.symm), ih h.2]
    rfl

namespace JsonPrinter

variable (P : JsonPrinter F)

mutual

theorem tree_value (laws : IntLaws T) : ∀ (v : Dynamic F) (nind : Nat), Plain v → (P.tree nind v).value T = v
  | .null, _, _ => rfl
  | .bool _, _, _ => rfl
  | .int _, _, h => intText_value laws h
  | .str s, _, _ => by rw [tree, Cst.value, stringValue_charPieces]
  | .arr [], _, _ => rfl
  | .arr (v :: rest), nind, ⟨hv, hi⟩ => by
    rw [tree, Cst.value, tree_value laws v _ hv, items_values laws rest _ hi]
  | .obj [], _, _ => rfl
  | .obj ((name, v) :: rest), nind, ⟨⟨hv, hm⟩, hn⟩ => by
    rw [tree, Cst.value, tree_value laws v _ hv, stringValue_charPieces, members_fields laws rest _ _ hm hn]
    rfl

theorem items_values (laws : IntLaws T) : ∀ (rest : List (Dynamic F)) (nind : Nat), PlainItems rest →
    (P.items nind rest).values T = rest
  | [], _, _ => rfl
  | v :: rest, nind, ⟨hv, hi⟩ => by
    rw [items, Items.values, tree_value laws v _ hv, items_values laws rest _ hi]

/-- The names are new, so every field is appended. -/
theorem members_fields (laws : IntLaws T) : ∀ (rest : List (Str × Dynamic F)) (nind : Nat)
    (before : List (Str × Dynamic F)), PlainFields rest → ((before ++ rest).map Prod.fst).Nodup →
    (P.members nind rest).fields T before = before ++ rest
  | [], _, before, _, _ => by simp [members, Members.fields]
  | (name, v) :: rest, nind, before, ⟨hv, hm⟩, hn => by
    have hnew : name ∉ before.map Prod.fst := by
      rw [List.map_append, List.map_cons] at hn
      intro h
      exact (List.nodup_append.mp hn).2.2 name h name (by simp) rfl
    rw [members, Members.fields, tree_value laws v _ hv, stringValue_charPieces, setField_new hnew,
      members_fields laws rest _ _ hm (by simpa using hn)]
    simp

end

end JsonPrinter

end EvilHaxe.Json
