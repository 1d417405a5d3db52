/-
Printing and parsing again: the value comes back, the indentation is all that pretty-printing adds, and the text is
one of RFC 8259 exactly where the strings have no control character that the printer leaves as it is.
-/
import EvilHaxe.Json.JsonPrinter

namespace EvilHaxe.Json

variable {F : Type} {T : Target F}

/-! ## The tokens that are printed -/

def PrintedPiece : Piece → Prop
  | .raw c => c ≠ '"'.toNat ∧ c ≠ '\\'.toNat
  | .escape c => c ≠ 'u'.toNat ∧ (StringState.unescape c).isSome
  | .unicode _ _ _ _ => False

def printed : Tokens := { piece := PrintedPiece, number := fun text => ∃ i, text = intText i }

theorem charPiece_cases (c : Nat) :
    (c ≠ '"'.toNat ∧ c ≠ '\\'.toNat ∧ c ≠ 8 ∧ c ≠ 9 ∧ c ≠ 10 ∧ c ≠ 12 ∧ c ≠ 13 ∧ charPiece c = .raw c) ∨
      ((0x20 ≤ c ∨ c = 8 ∨ c = 9 ∨ c = 10 ∨ c = 12 ∨ c = 13) ∧
        ∃ e, e ≠ 'u'.toNat ∧ StringState.unescape e = some c ∧ charPiece c = .escape e) := by
  by_cases h : c = 34 ∨ c = 92 ∨ c = 10 ∨ c = 13 ∨ c = 9 ∨ c = 8 ∨ c = 12
  · right
    rcases h with rfl | rfl | rfl | rfl | rfl | rfl | rfl <;> exact ⟨by decide, _, by decide, rfl, rfl⟩
  · left
    push Not at h
    obtain ⟨h1, h2, h3, h4, h5, h6, h7⟩ := h
    exact ⟨h1, h2, h6, h5, h3, h7, h4, by simp [charPiece, h1, h2, h3, h4, h5, h6, h7]⟩

theorem charPieces_printed (s : Str) : printed.string (s.map charPiece) := by
  intro p hp
  obtain ⟨c, -, rfl⟩ := List.mem_map.mp hp
  rcases charPiece_cases c with ⟨h1, h2, -, -, -, -, -, e⟩ | ⟨-, x, hx, he, e⟩
  · rw [e]
    exact ⟨h1, h2⟩
  · rw [e]
    exact ⟨hx, by simp [he]⟩

theorem charPieces_rfc {s : Str} : rfc8259.string (s.map charPiece) ↔ CleanString s := by
  have piece : ∀ c, RfcPiece (charPiece c) ↔ 0x20 ≤ c ∨ c = 8 ∨ c = 9 ∨ c = 10 ∨ c = 12 ∨ c = 13 := by
    intro c
    rcases charPiece_cases c with ⟨h1, h2, h3, h4, h5, h6, h7, e⟩ | ⟨hc, x, -, he, e⟩
    · rw [e]
      simp only [RfcPiece, h1, h2, h3, h4, h5, h6, h7, or_false, ne_eq, not_false_eq_true, and_true]
    · rw [e]
      simp only [RfcPiece, ← unescape_eq, he, Option.isSome_some, true_iff]
      exact hc
  constructor
  · intro h c hc
    exact (piece c).mp (h _ (List.mem_map_of_mem hc))
  · intro h p hp
    obtain ⟨c, hc, rfl⟩ := List.mem_map.mp hp
    exact (piece c).mpr (h c hc)

theorem intText_rfc (i : Int) : RfcNumber (intText i) := by
  obtain ⟨minus, int, hm, hi, e⟩ := intText_parts i
  exact ⟨minus, int, [], [], hm, hi, Or.inl rfl, Or.inl rfl, by simp [e]⟩

theorem printed_le_taken : printed.Le (taken T) where
  piece p h := by
    cases p with
    | raw c => exact h
    | escape c => exact h
    | unicode => cases h
  number text h := by
    obtain ⟨i, rfl⟩ := h
    obtain ⟨minus, int, hm, hi, e⟩ := intText_parts i
    exact ⟨minus, int, [], [], hm, hi, Or.inl rfl, Or.inl rfl, fun h => absurd rfl h, by simp [e]⟩

theorem printed_le_any : printed.Le anyTokens where
  piece p h := by
    cases p with
    | raw c => exact h
    | escape c => exact h.1
    | unicode => cases h
  number text h := by
    obtain ⟨i, rfl⟩ := h
    exact NumberState.rfc_any (intText_rfc i)

/-! ## The indentation -/

theorem Space.append {ws ws' : Str} (h : Space ws) (h' : Space ws') : Space (ws ++ ws') := by
  intro c hc
  rcases List.mem_append.mp hc with hc | hc
  · exact h c hc
  · exact h' c hc

namespace JsonPrinter

variable (P : JsonPrinter F)

/-- The indentation is whitespace. -/
def Indents : Prop := ∀ indent ∈ P.space, Space indent

theorem lpadLoop_space {c : Str} (hc : Space c) (l : Nat) (buf : Str) (hb : Space buf) : Space (lpadLoop c l buf) := by
  fun_induction lpadLoop c l buf with
  | case1 buf _ ih => exact ih (Space.append hb hc)
  | case2 buf _ => exact hb

theorem lpad_space {c : Str} (hc : Space c) (l : Nat) : Space (lpad [] c l) := by
  unfold lpad
  split
  · exact space_nil
  · rw [List.append_nil]
    exact lpadLoop_space hc _ _ space_nil

variable {P}

theorem beforeItem_space (h : P.Indents) (nind : Nat) : Space (P.beforeItem nind) := by
  apply Space.append
  · unfold newl
    split
    · exact Space.of_cons rfl space_nil
    · exact space_nil
  · unfold ipad
    split
    · next indent hi => exact lpad_space (h indent hi) _
    · exact space_nil

theorem afterItem_space (h : P.Indents) (nind : Nat) (last : Bool) : Space (P.afterItem nind last) := by
  cases last
  · exact space_nil
  · exact beforeItem_space h nind

theorem colonSpace_space : Space P.colonSpace := by
  unfold colonSpace
  split
  · exact Space.of_cons rfl space_nil
  · exact space_nil

mutual

theorem tree_printed (h : P.Indents) : ∀ (v : Dynamic F) (nind : Nat), (P.tree nind v).Allowed printed
  | .null, _ | .bool _, _ | .float _, _ | .map _, _ | .inst _, _ | .date _, _ | .func, _ | .enum _, _
  | .unknown, _ => trivial
  | .int i, _ => ⟨i, rfl⟩
  | .str s, _ => charPieces_printed s
  | .arr [], _ => space_nil
  | .arr (v :: rest), _ =>
    ⟨beforeItem_space h _, tree_printed h v _, afterItem_space h _ _, items_printed h rest _⟩
  | .obj [], _ => space_nil
  | .obj ((name, v) :: rest), _ =>
    ⟨beforeItem_space h _, charPieces_printed name, space_nil, colonSpace_space, tree_printed h v _,
      afterItem_space h _ _, members_printed h rest _⟩

theorem items_printed (h : P.Indents) : ∀ (rest : List (Dynamic F)) (nind : Nat), (P.items nind rest).Allowed printed
  | [], _ => trivial
  | v :: rest, _ =>
    ⟨beforeItem_space h _, tree_printed h v _, afterItem_space h _ _, items_printed h rest _⟩

theorem members_printed (h : P.Indents) : ∀ (rest : List (Str × Dynamic F)) (nind : Nat),
    (P.members nind rest).Allowed printed
  | [], _ => trivial
  | (name, v) :: rest, _ =>
    ⟨beforeItem_space h _, charPieces_printed name, space_nil, colonSpace_space, tree_printed h v _,
      afterItem_space h _ _, members_printed h rest _⟩

end

mutual

/-- The tree is one of RFC 8259 where the strings are clean. -/
theorem tree_rfc (h : P.Indents) : ∀ (v : Dynamic F) (nind : Nat), Plain v →
    ((P.tree nind v).Allowed rfc8259 ↔ Clean v)
  | .null, _, _ | .bool _, _, _ => Iff.rfl
  | .int i, _, _ => iff_of_true (intText_rfc i) trivial
  | .str _, _, _ => charPieces_rfc
  | .arr [], _, _ => iff_of_true space_nil trivial
  | .arr (v :: rest), nind, ⟨hv, hi⟩ => by
    have h1 := tree_rfc h v (nind + 1) hv
    have h2 := items_rfc h rest nind hi
    simp only [tree, Cst.Allowed, Clean, CleanItems, h1, h2, beforeItem_space h, afterItem_space h, true_and]
  | .obj [], _, _ => iff_of_true space_nil trivial
  | .obj ((name, v) :: rest), nind, ⟨⟨hv, hm⟩, _⟩ => by
    have h1 := tree_rfc h v (nind + 1) hv
    have h2 := members_rfc h rest nind hm
    simp only [tree, Cst.Allowed, Clean, CleanFields, h1, h2, beforeItem_space h, afterItem_space h, colonSpace_space,
      space_nil, charPieces_rfc, true_and]

theorem items_rfc (h : P.Indents) : ∀ (rest : List (Dynamic F)) (nind : Nat), PlainItems rest →
    ((P.items nind rest).Allowed rfc8259 ↔ CleanItems rest)
  | [], _, _ => Iff.rfl
  | v :: rest, nind, ⟨hv, hi⟩ => by
    have h1 := tree_rfc h v (nind + 1) hv
    have h2 := items_rfc h rest nind hi
    simp only [items, Items.Allowed, CleanItems, h1, h2, beforeItem_space h, afterItem_space h, true_and]

theorem members_rfc (h : P.Indents) : ∀ (rest : List (Str × Dynamic F)) (nind : Nat), PlainFields rest →
    ((P.members nind rest).Allowed rfc8259 ↔ CleanFields rest)
  | [], _, _ => Iff.rfl
  | (name, v) :: rest, nind, ⟨hv, hm⟩ => by
    have h1 := tree_rfc h v (nind + 1) hv
    have h2 := members_rfc h rest nind hm
    simp only [members, Members.Allowed, CleanFields, h1, h2, beforeItem_space h, afterItem_space h, colonSpace_space,
      space_nil, charPieces_rfc, true_and]

end

end JsonPrinter

/-! ## Insignificant whitespace -/

/-- The text without the whitespace that stands outside strings. -/
def minify (inString escaped : Bool) : Str → Str
  | [] => []
  | c :: s =>
    if inString then
      if escaped then c :: minify true false s
      else if c = '\\'.toNat then c :: minify true true s
      else c :: minify (c ≠ '"'.toNat) false s
    else if isSpace c then minify false false s
    else c :: minify (c = '"'.toNat) false s

theorem minify_space {ws : Str} (h : Space ws) (s : Str) : minify false false (ws ++ s) = minify false false s := by
  induction ws with
  | nil => rfl
  | cons c ws ih =>
    rw [List.cons_append, minify, if_neg (by decide), if_pos h.cons.1]
    exact ih h.cons.2

theorem minify_cons {c : Nat} (hs : isSpace c = false) (hq : c ≠ '"'.toNat) (s : Str) :
    minify false false (c :: s) = c :: minify false false s := by
  rw [minify, if_neg (by decide), if_neg (by simp [hs]), decide_eq_false hq]

theorem minify_chars {t : Str} (h : ∀ c ∈ t, isSpace c = false ∧ c ≠ '"'.toNat) (s : Str) :
    minify false false (t ++ s) = t ++ minify false false s := by
  induction t with
  | nil => rfl
  | cons c t ih =>
    obtain ⟨h1, h2⟩ := h c (by simp)
    rw [List.cons_append, minify_cons h1 h2, ih (fun x hx => h x (by simp [hx]))]
    rfl

theorem minify_pieces {ps : List Piece} (h : printed.string ps) (s : Str) :
    minify true false (renderPieces ps ++ '"'.toNat :: s) = renderPieces ps ++ '"'.toNat :: minify false false s := by
  induction ps with
  | nil => rfl
  | cons p ps ih =>
    have hp := h p (by simp)
    have ih := ih (fun x hx => h x (by simp [hx]))
    cases p with
    | raw c =>
      obtain ⟨h1, h2⟩ := hp
      simp only [renderPieces, Piece.render, List.cons_append, List.nil_append]
      rw [minify, if_pos rfl, if_neg (by decide), if_neg h2, decide_eq_true h1, ih]
    | escape c =>
      simp only [renderPieces, Piece.render, List.cons_append, List.nil_append]
      rw [minify, if_pos rfl, if_neg (by decide), if_pos rfl, minify, if_pos rfl, if_pos rfl, ih]
    | unicode => cases hp

theorem minify_string {ps : List Piece} (h : printed.string ps) (s : Str) :
    minify false false (renderString ps ++ s) = renderString ps ++ minify false false s := by
  simp only [renderString, List.cons_append, List.append_assoc, List.nil_append]
  rw [minify, if_neg (by decide), if_neg (by decide)]
  exact congrArg _ (minify_pieces h s)

mutual

def Cst.compact : Cst → Cst
  | .null => .null
  | .bool b => .bool b
  | .str ps => .str ps
  | .num text => .num text
  | .emptyArr _ => .emptyArr []
  | .arr _ v _ rest => .arr [] v.compact [] rest.compact
  | .emptyObj _ => .emptyObj []
  | .obj _ key _ _ v _ rest => .obj [] key [] [] v.compact [] rest.compact

def Items.compact : Items → Items
  | .nil => .nil
  | .cons _ v _ rest => .cons [] v.compact [] rest.compact

def Members.compact : Members → Members
  | .nil => .nil
  | .cons _ key _ _ v _ rest => .cons [] key [] [] v.compact [] rest.compact

end

theorem number_char {c : Nat} (h : isNumberChar c = true) : isSpace c = false ∧ c ≠ '"'.toNat := by
  constructor
  · rw [← Bool.not_eq_true]
    intro hs
    rw [isNumberChar_space hs] at h
    cases h
  · rintro rfl
    cases h

mutual

theorem minify_render : ∀ (t : Cst) (s : Str), t.Allowed printed →
    minify false false (t.render ++ s) = t.compact.render ++ minify false false s
  | .null, _, _ => rfl
  | .bool true, _, _ => rfl
  | .bool false, _, _ => rfl
  | .str _, s, h => minify_string h s
  | .num text, s, h => minify_chars (fun c hc => number_char ((printed_le_any.number text h).chars c hc)) s
  | .emptyArr ws, s, h => by
    simp only [Cst.render, Cst.compact, List.cons_append, List.append_assoc, List.nil_append]
    rw [minify_cons (by decide) (by decide), minify_space h, minify_cons (by decide) (by decide)]
  | .arr before v after rest, s, ⟨hb, hv, ha, hi⟩ => by
    simp only [Cst.render, Cst.compact, List.cons_append, List.append_assoc, List.nil_append]
    rw [minify_cons (by decide) (by decide), minify_space hb, minify_render v _ hv, minify_space ha,
      minify_items rest _ hi, minify_cons (by decide) (by decide)]
  | .emptyObj ws, s, h => by
    simp only [Cst.render, Cst.compact, List.cons_append, List.append_assoc, List.nil_append]
    rw [minify_cons (by decide) (by decide), minify_space h, minify_cons (by decide) (by decide)]
  | .obj before key colon before' v after rest, s, ⟨hb, hk, hc, hb', hv, ha, hm⟩ => by
    simp only [Cst.render, Cst.compact, List.cons_append, List.append_assoc, List.nil_append]
    rw [minify_cons (by decide) (by decide), minify_space hb, minify_string hk, minify_space hc,
      minify_cons (by decide) (by decide), minify_space hb', minify_render v _ hv, minify_space ha,
      minify_members rest _ hm, minify_cons (by decide) (by decide)]

theorem minify_items : ∀ (rest : Items) (s : Str), rest.Allowed printed →
    minify false false (rest.render ++ s) = rest.compact.render ++ minify false false s
  | .nil, _, _ => rfl
  | .cons before v after rest, s, ⟨hb, hv, ha, hi⟩ => by
    simp only [Items.render, Items.compact, List.cons_append, List.append_assoc, List.nil_append]
    rw [minify_cons (by decide) (by decide), minify_space hb, minify_render v _ hv, minify_space ha,
      minify_items rest _ hi]

theorem minify_members : ∀ (rest : Members) (s : Str), rest.Allowed printed →
    minify false false (rest.render ++ s) = rest.compact.render ++ minify false false s
  | .nil, _, _ => rfl
  | .cons before key colon before' v after rest, s, ⟨hb, hk, hc, hb', hv, ha, hm⟩ => by
    simp only [Members.render, Members.compact, List.cons_append, List.append_assoc, List.nil_append]
    rw [minify_cons (by decide) (by decide), minify_space hb, minify_string hk, minify_space hc,
      minify_cons (by decide) (by decide), minify_space hb', minify_render v _ hv, minify_space ha,
      minify_members rest _ hm]

end

namespace JsonPrinter

variable {P : JsonPrinter F}

/-- The printer without indentation. -/
def flat (P : JsonPrinter F) : JsonPrinter F := { P with space := none }

theorem flat_beforeItem (nind : Nat) : P.flat.beforeItem nind = [] := rfl

theorem flat_afterItem (nind : Nat) (last : Bool) : P.flat.afterItem nind last = [] := by
  cases last <;> rfl

theorem flat_colonSpace : P.flat.colonSpace = [] := rfl

mutual

theorem tree_compact : ∀ (v : Dynamic F) (nind nind' : Nat), (P.tree nind v).compact = P.flat.tree nind' v
  | .null, _, _ | .bool _, _, _ | .float _, _, _ | .map _, _, _ | .inst _, _, _ | .date _, _, _ | .func, _, _
  | .enum _, _, _ | .unknown, _, _ | .int _, _, _ | .str _, _, _ | .arr [], _, _ | .obj [], _, _ => rfl
  | .arr (v :: rest), nind, nind' => by
    rw [tree, tree, Cst.compact, tree_compact v _ (nind' + 1), items_compact rest _ nind', flat_beforeItem,
      flat_afterItem]
  | .obj ((name, v) :: rest), nind, nind' => by
    rw [tree, tree, Cst.compact, tree_compact v _ (nind' + 1), members_compact rest _ nind', flat_beforeItem,
      flat_afterItem, flat_colonSpace]

theorem items_compact : ∀ (rest : List (Dynamic F)) (nind nind' : Nat),
    (P.items nind rest).compact = P.flat.items nind' rest
  | [], _, _ => rfl
  | v :: rest, nind, nind' => by
    rw [items, items, Items.compact, tree_compact v _ (nind' + 1), items_compact rest _ nind', flat_beforeItem,
      flat_afterItem]

theorem members_compact : ∀ (rest : List (Str × Dynamic F)) (nind nind' : Nat),
    (P.members nind rest).compact = P.flat.members nind' rest
  | [], _, _ => rfl
  | (name, v) :: rest, nind, nind' => by
    rw [members, members, Members.compact, tree_compact v _ (nind' + 1), members_compact rest _ nind', flat_beforeItem,
      flat_afterItem, flat_colonSpace]

end

end JsonPrinter

/-! ## The round trip -/

/-- What is expected of printing `v`. -/
def RoundTrips (T : Target F) (P : JsonPrinter F) (v : Dynamic F) : Prop :=
  parse T (P.print v) = .ok v ∧ (∃ t, IsText rfc8259 (P.print v) t) ∧ minify false false (P.print v) = P.flat.print v

theorem print_eq {P : JsonPrinter F} {v : Dynamic F} (hv : Plain v) : P.print v = (P.tree 0 v).render := by
  rw [JsonPrinter.print, JsonPrinter.write_tree P v 0 hv]

theorem print_text {P : JsonPrinter F} {v : Dynamic F} (hv : Plain v) {G : Tokens} (h : (P.tree 0 v).Allowed G) :
    IsText G (P.print v) (P.tree 0 v) :=
  ⟨h, [], [], space_nil, space_nil, by simp [print_eq hv]⟩

/-- Parsing what was printed gives the value back, whatever its strings hold. -/
theorem parse_print (laws : IntLaws T) {P : JsonPrinter F} (hP : P.Indents) {v : Dynamic F} (hv : Plain v) :
    parse T (P.print v) = .ok v := by
  have ht := (JsonPrinter.tree_printed hP v 0).mono (printed_le_taken (T := T))
  rw [parse_ok.mpr ⟨_, print_text hv ht, rfl⟩, JsonPrinter.tree_value P laws v 0 hv]

theorem minify_print {P : JsonPrinter F} (hP : P.Indents) {v : Dynamic F} (hv : Plain v) :
    minify false false (P.print v) = P.flat.print v := by
  have h := minify_render (P.tree 0 v) [] (JsonPrinter.tree_printed hP v 0)
  rw [List.append_nil] at h
  rw [print_eq hv, h, print_eq hv, JsonPrinter.tree_compact v 0 0]
  exact List.append_nil _

/-- The text is one of RFC 8259 where the strings of the value are clean. -/
theorem print_rfc {P : JsonPrinter F} (hP : P.Indents) {v : Dynamic F} (hv : Plain v) :
    (∃ t, IsText rfc8259 (P.print v) t) ↔ Clean v := by
  rw [← JsonPrinter.tree_rfc hP v 0 hv]
  constructor
  · rintro ⟨t, ht⟩
    have hany := print_text hv ((JsonPrinter.tree_printed hP v 0).mono printed_le_any)
    rw [text_unique hany (ht.mono rfc_le_any)]
    exact ht.1
  · intro h
    exact ⟨_, print_text hv h⟩

theorem roundTrips_iff (laws : IntLaws T) {P : JsonPrinter F} (hP : P.Indents) {v : Dynamic F} (hv : Plain v) :
    RoundTrips T P v ↔ Clean v := by
  constructor
  · rintro ⟨-, h, -⟩
    exact (print_rfc hP hv).mp h
  · intro h
    exact ⟨parse_print laws hP hv, (print_rfc hP hv).mpr h, minify_print hP hv⟩

/-! ### Two values -/

theorem readDigits_eq (ds : List Nat) :
    (ds.reverse.map (· + '0'.toNat)).foldl (fun n d => n * 10 + (d - '0'.toNat)) 0 = Nat.ofDigits 10 ds := by
  rw [Nat.ofDigits_eq_foldr, List.foldl_map, List.foldl_reverse]
  congr 1
  funext d n
  simp only [Char.reduceToNat, Nat.cast_id]
  omega

theorem readNat_natText (n : Nat) : (natText n).foldl (fun n d => n * 10 + (d - '0'.toNat)) 0 = n := by
  unfold natText
  split_ifs with h
  · rw [h]
    rfl
  · rw [readDigits_eq, Nat.ofDigits_digits]

theorem integers_laws : IntLaws integers where
  parseFloat i _ _ := by
    show integers.parseFloat (intText i) = i
    unfold intText
    split_ifs with h
    · simp only [integers, if_true, readNat_natText]
      omega
    · have hn := readNat_natText i.natAbs
      obtain ⟨c, s, hc⟩ : ∃ c s, natText i.natAbs = c :: s := by
        rcases natText_intPart i.natAbs with e | ⟨d, ds, e, -⟩ <;> exact ⟨_, _, e⟩
      have hminus : c ≠ '-'.toNat := by
        rcases natText_intPart i.natAbs with e | ⟨d, ds, e, hd, -⟩
        · rw [e] at hc
          cases hc
          decide
        · rw [e] at hc
          cases hc
          rintro rfl
          cases hd
      rw [hc] at hn ⊢
      simp only [integers, if_neg hminus, hn]
      omega
  int _ _ _ := rfl
  eq i _ _ := beq_self_eq_true i

def twoSpaces : JsonPrinter Int where
  space := some [' '.toNat, ' '.toNat]
  isFinite _ := true
  floatText := intText

theorem twoSpaces_indents : twoSpaces.Indents := by
  rintro indent ⟨⟩
  exact Space.of_cons rfl (Space.of_cons rfl space_nil)

/-- An array of an integer and a structure comes back from its indented text. -/
theorem roundTrips_nested : RoundTrips integers twoSpaces (.arr [.int (-5), .obj [(['a'.toNat], .str ['\n'.toNat])]]) :=
  (roundTrips_iff integers_laws twoSpaces_indents (by simp [Plain, PlainItems, PlainFields])).mpr
    (by simp [Clean, CleanItems, CleanFields, CleanString])

/-- The string with the character U+0001 is printed as it is. -/
theorem control_character_fails : ¬ RoundTrips integers twoSpaces (.str [1]) := by
  rintro ⟨-, h, -⟩
  have hc : CleanString [1] := (print_rfc twoSpaces_indents (v := .str [1]) trivial).mp h
  have := hc 1 (by simp)
  omega

end EvilHaxe.Json
