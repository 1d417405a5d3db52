/-
The indentation of `haxe.format.JsonPrinter`. A value has a document, in which the line breaks stand without their depth;
laid out, each line is indented by the number of brackets open around it. The printer counts these in `nind`, and misses
the closing bracket of a structure whose last field it passes over.
-/
import EvilHaxe.Json.JsonPrinter

namespace EvilHaxe.Json

variable {F : Type}

namespace JsonPrinter

/-! ## Documents -/

inductive Token where
  | text (s : Str)
  | enter (bracket : Nat)
  | leave (bracket : Nat)
  | line
  deriving DecidableEq

variable (P : JsonPrinter F)

/-- `depth` times the indentation string. -/
def indentation (depth : Nat) : Str :=
  match P.space with
  | some indent => (List.replicate depth indent).flatten
  | none => []

/-- The text of a document that stands between `depth` brackets. A line that begins with a closing bracket belongs to what
is around it. -/
def layout (depth : Nat) : List Token → Str
  | [] => []
  | .text s :: rest => s ++ layout depth rest
  | .enter bracket :: rest => bracket :: layout (depth + 1) rest
  | .leave bracket :: rest => bracket :: layout (depth - 1) rest
  | .line :: .leave bracket :: rest =>
    P.newl ++ (P.indentation (depth - 1) ++ layout depth (.leave bracket :: rest))
  | .line :: rest => P.newl ++ (P.indentation depth ++ layout depth rest)

def comma (first : Bool) : List Token := if first then [] else [.text [','.toNat]]

/-- The break before the closing bracket. -/
def lastLine (first : Bool) : List Token := if first then [] else [.line]

mutual

/-- A value of one line is what `write` appends for it. A field that holds a function has no line. -/
def document : Dynamic F → List Token
  | .arr items => .enter '['.toNat :: (documentItems true items ++ [.leave ']'.toNat])
  | .obj fields | .map fields | .inst fields =>
    .enter '\x7b'.toNat :: (documentFields true fields ++ [.leave '\x7d'.toNat])
  | .unknown => [.text ['"'.toNat, '?'.toNat, '?'.toNat, '?'.toNat, '"'.toNat]]
  | .int i => [.text (intText i)]
  | .float f => [.text (if P.isFinite f then P.floatText f else ['n'.toNat, 'u'.toNat, 'l'.toNat, 'l'.toNat])]
  | .func => [.text ['"'.toNat, '<'.toNat, 'f'.toNat, 'u'.toNat, 'n'.toNat, '>'.toNat, '"'.toNat]]
  | .str s => [.text (quote s)]
  | .date text => [.text (quote text)]
  | .enum index => [.text (natText index)]
  | .bool true => [.text ['t'.toNat, 'r'.toNat, 'u'.toNat, 'e'.toNat]]
  | .bool false => [.text ['f'.toNat, 'a'.toNat, 'l'.toNat, 's'.toNat, 'e'.toNat]]
  | .null => [.text ['n'.toNat, 'u'.toNat, 'l'.toNat, 'l'.toNat]]

def documentItems (first : Bool) : List (Dynamic F) → List Token
  | [] => lastLine first
  | v :: rest => comma first ++ .line :: (document v ++ documentItems false rest)

def documentFields (first : Bool) : List (Str × Dynamic F) → List Token
  | [] => lastLine first
  | (name, v) :: rest =>
    if v.isFunction then documentFields first rest
    else
      comma first ++ .line :: .text (quote name ++ ':'.toNat :: P.colonSpace) ::
        (document v ++ documentFields false rest)

end

/-! ## The values of which the brackets are counted -/

/-- All fields hold functions, or the last one does not. -/
def EndsPrinted (fields : List (Str × Dynamic F)) : Prop :=
  (∀ f ∈ fields, f.2.isFunction = true) ∨ ∀ f ∈ fields.getLast?, f.2.isFunction = false

mutual

/-- In every structure, map and instance of a class the last field is printed, or none is. -/
def Balanced : Dynamic F → Prop
  | .arr items => BalancedItems items
  | .obj fields | .map fields | .inst fields => EndsPrinted fields ∧ BalancedFields fields
  | .null | .bool _ | .int _ | .float _ | .str _ | .date _ | .func | .enum _ | .unknown => True

def BalancedItems : List (Dynamic F) → Prop
  | [] => True
  | v :: rest => Balanced v ∧ BalancedItems rest

def BalancedFields : List (Str × Dynamic F) → Prop
  | [] => True
  | (_, v) :: rest => Balanced v ∧ BalancedFields rest

end

/-! ## The counter -/

/-- The last field is passed over. -/
def endsSkipped (fields : List (Str × Dynamic F)) : Nat :=
  match fields.getLast? with
  | some f => if f.2.isFunction then 1 else 0
  | none => 0

theorem endsSkipped_cons (f : Str × Dynamic F) {rest : List (Str × Dynamic F)} (h : rest ≠ []) :
    endsSkipped (f :: rest) = endsSkipped rest := by
  unfold endsSkipped
  rw [List.getLast?_cons_of_ne_nil h]

theorem endsSkipped_printed (name : Str) {v : Dynamic F} (h : v.isFunction = false) (rest : List (Str × Dynamic F)) :
    endsSkipped ((name, v) :: rest) = endsSkipped rest := by
  cases rest with
  | nil => simp [endsSkipped, h]
  | cons g rest => rw [endsSkipped_cons _ (List.cons_ne_nil _ _)]

/-- The bracket around is counted back behind the last member. -/
theorem counter_behind (last : Bool) (nind d : Nat) : (if last then nind + 1 + d - 1 else nind + 1 + d) =
    if last then nind + d else nind + d + 1 := by
  split <;> omega

mutual

/-- How many brackets are not counted back. -/
def drift : Dynamic F → Nat
  | .arr items => driftItems items
  | .obj fields | .map fields | .inst fields =>
    driftFields fields + if fields.all (·.2.isFunction) then 0 else endsSkipped fields
  | .null | .bool _ | .int _ | .float _ | .str _ | .date _ | .func | .enum _ | .unknown => 0

def driftItems : List (Dynamic F) → Nat
  | [] => 0
  | v :: rest => drift v + driftItems rest

def driftFields : List (Str × Dynamic F) → Nat
  | [] => 0
  | (_, v) :: rest => drift v + driftFields rest

end

theorem drift_function {v : Dynamic F} (h : v.isFunction = true) : drift v = 0 := by
  cases v <;> first | rfl | cases h

mutual

theorem write_counter : ∀ (v : Dynamic F) (nind : Nat), (P.write nind v).2 = nind + drift v
  | .arr items, nind => by
    rw [write, drift]
    exact writeItems_first items nind
  | .obj fields, nind | .map fields, nind | .inst fields, nind => by
    rw [write, drift]
    exact writeFields_first fields nind
  | .null, _ | .bool true, _ | .bool false, _ | .int _, _ | .float _, _ | .str _, _ | .date _, _ | .func, _
  | .enum _, _ | .unknown, _ => rfl

theorem writeItems_first : ∀ (items : List (Dynamic F)) (nind : Nat),
    (P.writeItems nind true items).2 = nind + driftItems items
  | [], _ => rfl
  | v :: rest, nind => by
    have hrest := writeItems_counter rest (nind + drift v)
    have hv := write_counter v (nind + 1)
    have hnind := counter_behind rest.isEmpty nind (drift v)
    rw [writeItems, driftItems]
    simp only [if_true, hv, hnind, hrest]
    omega

/-- Behind an item. -/
theorem writeItems_counter : ∀ (items : List (Dynamic F)) (nind : Nat),
    (P.writeItems (if items.isEmpty then nind else nind + 1) false items).2 = nind + driftItems items
  | [], _ => rfl
  | v :: rest, nind => by
    have hrest := writeItems_counter rest (nind + drift v)
    have hv := write_counter v (nind + 1)
    have hnind := counter_behind rest.isEmpty nind (drift v)
    rw [writeItems, driftItems]
    simp only [List.isEmpty_cons, Bool.false_eq_true, if_false, hv, hnind, hrest]
    omega

theorem writeFields_first : ∀ (fields : List (Str × Dynamic F)) (nind : Nat), (P.writeFields nind true fields).2 =
    nind + (driftFields fields + if fields.all (·.2.isFunction) then 0 else endsSkipped fields)
  | [], _ => rfl
  | (name, v) :: rest, nind => by
    rw [writeFields, driftFields, List.all_cons]
    cases hfun : v.isFunction with
    | true =>
      have hrest := writeFields_first rest nind
      simp only [if_true, Bool.true_and, drift_function hfun, hrest, Nat.zero_add]
      cases rest with
      | nil => rfl
      | cons g rest => rw [endsSkipped_cons _ (List.cons_ne_nil _ _)]
    | false =>
      have hrest := writeFields_counter rest (nind + drift v)
      have hv := write_counter v (nind + 1)
      have hnind := counter_behind rest.isEmpty nind (drift v)
      have hends := endsSkipped_printed name hfun rest
      simp only [Bool.false_eq_true, if_false, if_true, Bool.false_and, hv, hnind, hrest, hends]
      omega

/-- Behind a field that is printed. -/
theorem writeFields_counter : ∀ (fields : List (Str × Dynamic F)) (nind : Nat),
    (P.writeFields (if fields.isEmpty then nind else nind + 1) false fields).2 =
      nind + (driftFields fields + endsSkipped fields)
  | [], _ => rfl
  | (name, v) :: rest, nind => by
    rw [writeFields, driftFields]
    simp only [List.isEmpty_cons, Bool.false_eq_true, if_false]
    have hrest := writeFields_counter rest (nind + drift v)
    cases hfun : v.isFunction with
    | true =>
      rw [drift_function hfun] at hrest ⊢
      simp only [if_true]
      cases rest with
      | nil => simp [writeFields, endsSkipped, hfun, driftFields]
      | cons g rest =>
        rw [endsSkipped_cons _ (List.cons_ne_nil _ _)]
        simpa using hrest
    | false =>
      have hv := write_counter v (nind + 1)
      have hnind := counter_behind rest.isEmpty nind (drift v)
      have hends := endsSkipped_printed name hfun rest
      simp only [Bool.false_eq_true, if_false, hv, hnind, hrest, hends]
      omega

end

mutual

theorem drift_eq_zero_iff : ∀ v : Dynamic F, drift v = 0 ↔ Balanced v
  | .arr items => driftItems_eq_zero_iff items
  | .obj fields | .map fields | .inst fields => by
    rw [drift, Balanced, Nat.add_eq_zero_iff, driftFields_eq_zero_iff fields, and_comm]
    refine and_congr_left' ?_
    rw [EndsPrinted, endsSkipped]
    by_cases hall : fields.all (·.2.isFunction) = true
    · rw [if_pos hall]
      exact iff_of_true rfl (Or.inl (List.all_eq_true.1 hall))
    · rw [if_neg hall]
      rw [List.all_eq_true] at hall
      rw [or_iff_right hall]
      cases hlast : fields.getLast? with
      | none => simp
      | some f => cases hfun : f.2.isFunction <;> simp [hfun]
  | .null | .bool _ | .int _ | .float _ | .str _ | .date _ | .func | .enum _ | .unknown => iff_of_true rfl trivial

theorem driftItems_eq_zero_iff : ∀ items : List (Dynamic F), driftItems items = 0 ↔ BalancedItems items
  | [] => iff_of_true rfl trivial
  | v :: rest => by
    rw [driftItems, BalancedItems, Nat.add_eq_zero_iff, drift_eq_zero_iff v, driftItems_eq_zero_iff rest]

theorem driftFields_eq_zero_iff : ∀ fields : List (Str × Dynamic F), driftFields fields = 0 ↔ BalancedFields fields
  | [] => iff_of_true rfl trivial
  | (_, v) :: rest => by
    rw [driftFields, BalancedFields, Nat.add_eq_zero_iff, drift_eq_zero_iff v, driftFields_eq_zero_iff rest]

end

theorem write_balanced {v : Dynamic F} (h : Balanced v) (nind : Nat) : ∃ s, P.write nind v = (s, nind) := by
  have hcounter := P.write_counter v nind
  rw [(drift_eq_zero_iff v).2 h, Nat.add_zero] at hcounter
  exact ⟨_, Prod.ext rfl hcounter⟩

/-! ## The lines -/

theorem lpadLoop_copies {c : Str} (hc : 0 < c.length) (k j : Nat) :
    lpadLoop c ((j + k) * c.length) (List.replicate j c).flatten = (List.replicate (j + k) c).flatten := by
  induction k generalizing j with
  | zero =>
    rw [lpadLoop, if_neg (by simp)]
    rfl
  | succ k ih =>
    have hlt : j * c.length < (j + (k + 1)) * c.length := Nat.mul_lt_mul_of_pos_right (by omega) hc
    have hmore : (List.replicate j c).flatten ++ c = (List.replicate (j + 1) c).flatten := by
      rw [List.replicate_succ', List.flatten_append]
      simp
    rw [lpadLoop, if_pos ⟨by simpa using hlt, hc⟩, hmore, show j + (k + 1) = j + 1 + k by omega]
    exact ih (j + 1)

/-- The padding is made of whole copies of the indentation string. -/
theorem ipad_eq (depth : Nat) : P.ipad depth = P.indentation depth := by
  unfold ipad indentation
  cases P.space with
  | none => rfl
  | some indent =>
    simp only
    unfold lpad
    split
    · rename_i hempty
      rw [List.length_eq_zero_iff.1 hempty]
      simp
    · rename_i hne
      have h := lpadLoop_copies (Nat.pos_of_ne_zero hne) depth 0
      rw [Nat.zero_add] at h
      rw [List.append_nil]
      exact h

theorem layout_line (depth : Nat) {ts : List Token} (h : ∀ b r, ts ≠ .leave b :: r) :
    P.layout depth (.line :: ts) = P.newl ++ (P.ipad depth ++ P.layout depth ts) := by
  rw [ipad_eq]
  cases ts with
  | nil => rfl
  | cons t ts =>
    cases t with
    | leave b => exact absurd rfl (h b ts)
    | text s => rfl
    | enter b => rfl
    | line => rfl

theorem layout_lastLine (depth b : Nat) (r : List Token) :
    P.layout (depth + 1) (.line :: .leave b :: r) = P.newl ++ (P.ipad depth ++ b :: P.layout depth r) := by
  rw [ipad_eq]
  rfl

theorem document_head (v : Dynamic F) (b : Nat) (ts r : List Token) : P.document v ++ ts ≠ .leave b :: r := by
  cases v with
  | bool c => cases c <;> (intro h; cases h)
  | _ => intro h; cases h

theorem EndsPrinted.tail_of_function {f : Str × Dynamic F} {rest : List (Str × Dynamic F)} (h : EndsPrinted (f :: rest))
    (_ : f.2.isFunction = true) : EndsPrinted rest := by
  rcases h with h | h
  · exact Or.inl fun g hg => h g (List.mem_cons_of_mem _ hg)
  · cases rest with
    | nil => exact Or.inl fun g hg => absurd hg List.not_mem_nil
    | cons g rest =>
      rw [List.getLast?_cons_of_ne_nil (List.cons_ne_nil _ _)] at h
      exact Or.inr h

theorem EndsPrinted.last_of_printed {f : Str × Dynamic F} {rest : List (Str × Dynamic F)} (h : EndsPrinted (f :: rest))
    (hfun : f.2.isFunction = false) : ∀ g ∈ rest.getLast?, g.2.isFunction = false := by
  rcases h with h | h
  · have := h f List.mem_cons_self
    rw [hfun] at this
    cases this
  · cases rest with
    | nil => exact fun g hg => absurd hg (by simp)
    | cons g rest =>
      rw [List.getLast?_cons_of_ne_nil (List.cons_ne_nil _ _)] at h
      exact h

/-- The line of an item and what is behind it. -/
theorem layout_item (first : Bool) {v : Dynamic F} {s : Str} {nind : Nat} {rest : List (Dynamic F)} {ts : List Token}
    {tail : Str} (hwrite : P.write (nind + 1) v = (s, nind + 1))
    (hdocument : P.layout (nind + 1) (P.document v ++ ts) = s ++ P.layout (nind + 1) ts)
    (hbehind : P.layout (nind + 1) ts = P.afterItem nind rest.isEmpty ++
      ((P.writeItems (if rest.isEmpty then nind else nind + 1) false rest).1 ++ tail)) :
    P.layout (nind + 1) (comma first ++ .line :: (P.document v ++ ts)) =
      (P.writeItems (if first then nind else nind + 1) first (v :: rest)).1 ++ tail := by
  have hline := P.layout_line (nind + 1) (P.document_head v · ts ·)
  rw [hdocument, hbehind] at hline
  rw [writeItems]
  cases first with
  | true =>
    simp only [comma, if_true, List.nil_append, hline, hwrite, Nat.add_sub_cancel, after_eq]
    simp
  | false =>
    simp only [comma, Bool.false_eq_true, if_false, List.singleton_append, layout, hline, hwrite, Nat.add_sub_cancel,
      after_eq]
    simp

/-- The line of a field that is printed. -/
theorem layout_field (name : Str) (first : Bool) {v : Dynamic F} {s : Str} {nind : Nat}
    {rest : List (Str × Dynamic F)} {ts : List Token} {tail : Str} (hfun : v.isFunction = false)
    (hwrite : P.write (nind + 1) v = (s, nind + 1))
    (hdocument : P.layout (nind + 1) (P.document v ++ ts) = s ++ P.layout (nind + 1) ts)
    (hbehind : P.layout (nind + 1) ts = P.afterItem nind rest.isEmpty ++
      ((P.writeFields (if rest.isEmpty then nind else nind + 1) false rest).1 ++ tail)) :
    P.layout (nind + 1)
        (comma first ++ .line :: .text (quote name ++ ':'.toNat :: P.colonSpace) :: (P.document v ++ ts)) =
      (P.writeFields (if first then nind else nind + 1) first ((name, v) :: rest)).1 ++ tail := by
  have hline := @layout_line F P (nind + 1) (.text (quote name ++ ':'.toNat :: P.colonSpace) :: (P.document v ++ ts))
    fun b r h => by cases h
  rw [layout, hdocument, hbehind] at hline
  rw [writeFields]
  cases first with
  | true =>
    simp only [comma, if_true, hfun, Bool.false_eq_true, if_false, List.nil_append, hline, hwrite, Nat.add_sub_cancel,
      after_eq]
    simp
  | false =>
    simp only [comma, hfun, Bool.false_eq_true, if_false, List.singleton_append, hwrite, Nat.add_sub_cancel, after_eq]
    rw [layout, hline]
    simp

mutual

/-- Where the brackets are counted, the text is the layout of the document. -/
theorem layout_document : ∀ (v : Dynamic F) (nind : Nat) (r : List Token), Balanced v →
    P.layout nind (P.document v ++ r) = (P.write nind v).1 ++ P.layout nind r
  | .arr items, nind, r, h => by
    have hitems := layout_items items nind ']'.toNat r h
    rw [document, List.cons_append, layout, List.append_assoc, List.singleton_append, hitems, write]
    simp
  | .obj fields, nind, r, h | .map fields, nind, r, h | .inst fields, nind, r, h => by
    have hfields := layout_fields fields nind '\x7d'.toNat r h.1 h.2
    rw [document, List.cons_append, layout, List.append_assoc, List.singleton_append, hfields, write]
    simp
  | .null, _, _, _ | .bool true, _, _, _ | .bool false, _, _, _ | .int _, _, _, _ | .float _, _, _, _
  | .str _, _, _, _ | .date _, _, _, _ | .func, _, _, _ | .enum _, _, _, _ | .unknown, _, _, _ => rfl

theorem layout_items : ∀ (items : List (Dynamic F)) (nind bracket : Nat) (r : List Token), BalancedItems items →
    P.layout (nind + 1) (P.documentItems true items ++ .leave bracket :: r) =
      (P.writeItems nind true items).1 ++ bracket :: P.layout nind r
  | [], _, _, _, _ => rfl
  | v :: rest, nind, bracket, r, ⟨hv, hrest⟩ => by
    obtain ⟨s, hwrite⟩ := P.write_balanced hv (nind + 1)
    have hdocument := layout_document v (nind + 1) (P.documentItems false rest ++ .leave bracket :: r) hv
    rw [hwrite] at hdocument
    have hbehind := layout_itemsBehind rest nind bracket r hrest
    have hitem := P.layout_item true hwrite hdocument hbehind
    rw [documentItems, List.append_assoc, List.cons_append, List.append_assoc]
    exact hitem

/-- Behind an item. -/
theorem layout_itemsBehind : ∀ (items : List (Dynamic F)) (nind bracket : Nat) (r : List Token), BalancedItems items →
    P.layout (nind + 1) (P.documentItems false items ++ .leave bracket :: r) =
      P.afterItem nind items.isEmpty ++
        ((P.writeItems (if items.isEmpty then nind else nind + 1) false items).1 ++ bracket :: P.layout nind r)
  | [], nind, bracket, r, _ => by
    have hline := P.layout_lastLine nind bracket r
    rw [← List.append_assoc] at hline
    exact hline
  | v :: rest, nind, bracket, r, ⟨hv, hrest⟩ => by
    obtain ⟨s, hwrite⟩ := P.write_balanced hv (nind + 1)
    have hdocument := layout_document v (nind + 1) (P.documentItems false rest ++ .leave bracket :: r) hv
    rw [hwrite] at hdocument
    have hbehind := layout_itemsBehind rest nind bracket r hrest
    have hitem := P.layout_item false hwrite hdocument hbehind
    rw [documentItems, List.append_assoc, List.cons_append, List.append_assoc]
    exact hitem

theorem layout_fields : ∀ (fields : List (Str × Dynamic F)) (nind bracket : Nat) (r : List Token), EndsPrinted fields →
    BalancedFields fields → P.layout (nind + 1) (P.documentFields true fields ++ .leave bracket :: r) =
      (P.writeFields nind true fields).1 ++ bracket :: P.layout nind r
  | [], _, _, _, _, _ => rfl
  | (name, v) :: rest, nind, bracket, r, hends, ⟨hv, hrest⟩ => by
    cases hfun : v.isFunction with
    | true =>
      rw [documentFields, if_pos hfun, writeFields, if_pos hfun]
      exact layout_fields rest nind bracket r (hends.tail_of_function hfun) hrest
    | false =>
      obtain ⟨s, hwrite⟩ := P.write_balanced hv (nind + 1)
      have hdocument := layout_document v (nind + 1) (P.documentFields false rest ++ .leave bracket :: r) hv
      rw [hwrite] at hdocument
      have hbehind := layout_fieldsBehind rest nind bracket r (hends.last_of_printed hfun) hrest
      have hfield := P.layout_field name true hfun hwrite hdocument hbehind
      rw [documentFields, hfun, if_neg Bool.false_ne_true, List.append_assoc, List.cons_append, List.cons_append,
        List.append_assoc]
      exact hfield

/-- Behind a field that is printed. -/
theorem layout_fieldsBehind : ∀ (fields : List (Str × Dynamic F)) (nind bracket : Nat) (r : List Token),
    (∀ f ∈ fields.getLast?, f.2.isFunction = false) → BalancedFields fields →
    P.layout (nind + 1) (P.documentFields false fields ++ .leave bracket :: r) =
      P.afterItem nind fields.isEmpty ++
        ((P.writeFields (if fields.isEmpty then nind else nind + 1) false fields).1 ++ bracket :: P.layout nind r)
  | [], nind, bracket, r, _, _ => by
    have hline := P.layout_lastLine nind bracket r
    rw [← List.append_assoc] at hline
    exact hline
  | (name, v) :: rest, nind, bracket, r, hlast, ⟨hv, hrest⟩ => by
    cases hfun : v.isFunction with
    | true =>
      obtain ⟨g, rest, rfl⟩ : ∃ g rest', rest = g :: rest' := by
        cases rest with
        | nil =>
          rw [hlast (name, v) rfl] at hfun
          cases hfun
        | cons g rest => exact ⟨g, rest, rfl⟩
      rw [List.getLast?_cons_of_ne_nil (List.cons_ne_nil _ _)] at hlast
      have hbehind := layout_fieldsBehind (g :: rest) nind bracket r hlast hrest
      have hskip : P.writeFields (nind + 1) false ((name, v) :: g :: rest) = P.writeFields (nind + 1) false (g :: rest) := by
        rw [writeFields, if_pos hfun]
      rw [documentFields, if_pos hfun, hbehind]
      simp only [List.isEmpty_cons, Bool.false_eq_true, if_false, hskip]
    | false =>
      obtain ⟨s, hwrite⟩ := P.write_balanced hv (nind + 1)
      have hdocument := layout_document v (nind + 1) (P.documentFields false rest ++ .leave bracket :: r) hv
      rw [hwrite] at hdocument
      have hends : EndsPrinted ((name, v) :: rest) := Or.inr hlast
      have hbehind := layout_fieldsBehind rest nind bracket r (hends.last_of_printed hfun) hrest
      have hfield := P.layout_field name false hfun hwrite hdocument hbehind
      rw [documentFields, hfun, if_neg Bool.false_ne_true, List.append_assoc, List.cons_append, List.cons_append,
        List.append_assoc]
      exact hfield

end

/-- The printer leaves the counter as it found it and indents each line by its depth, exactly if the last field of every
structure is printed, or none is. -/
theorem write_eq_layout_iff (v : Dynamic F) (nind : Nat) :
    P.write nind v = (P.layout nind (P.document v), nind) ↔ Balanced v := by
  constructor
  · intro h
    have hcounter := P.write_counter v nind
    rw [h] at hcounter
    exact (drift_eq_zero_iff v).1 (by simpa using hcounter)
  · intro h
    obtain ⟨s, hs⟩ := P.write_balanced h nind
    have hlayout := P.layout_document v nind [] h
    rw [List.append_nil, hs] at hlayout
    rw [hs, hlayout]
    simp [layout]

/-- Two fields, of which the last holds a function: the counter stays at 1 behind them. -/
theorem write_lastFunction : ¬∀ (P : JsonPrinter Int) (v : Dynamic Int) (nind : Nat),
    P.write nind v = (P.layout nind (P.document v), nind) := by
  intro h
  have hcounter := congrArg Prod.snd
    (h ⟨some [' '.toNat], fun _ => true, fun _ => []⟩ (.obj [(['a'.toNat], .int 1), (['f'.toNat], .func)]) 0)
  rw [write_counter] at hcounter
  exact absurd hcounter (by decide)

end JsonPrinter

end EvilHaxe.Json
