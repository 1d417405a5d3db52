/-
`parse` against RFC 8259: on which texts it returns, what it returns, and the texts on which it keeps to the grammar.
-/
import EvilHaxe.Json.Accepts

namespace EvilHaxe.Json

variable {F : Type} {T : Target F}

/-! ## The rounds do not run out -/

theorem ReadsValue.shorter {s r : Str} {v : Dynamic F} (h : ReadsValue T s r v) : r.length < s.length := by
  obtain ⟨ws, t, -, ht, rfl, -⟩ := h
  obtain ⟨s', hs⟩ := render_first (ht.mono taken_le_any)
  simp only [List.length_append, hs, List.length_cons]
  omega

theorem parseString_shorter {i j : Input} {v : Str} (h : parseString T i = .ok (v, j)) :
    j.rest.length < i.rest.length := by
  obtain ⟨ps, -, hs, -⟩ := parseString_ok h
  have := congrArg List.length hs
  simp only [renderString, List.length_append, List.length_cons, List.cons_append] at this
  omega

theorem bind_ne_outOfFuel {A B : Type} {x : Except Error A} {f : A → Except Error B} (hx : x ≠ .error .outOfFuel)
    (hf : ∀ a, x = .ok a → f a ≠ .error .outOfFuel) : (x >>= f) ≠ .error .outOfFuel := by
  cases x with
  | error e =>
    intro h
    cases h
    exact hx rfl
  | ok a => exact hf a rfl

theorem parseString_ne_outOfFuel (i : Input) : parseString T i ≠ .error .outOfFuel :=
  stringLoop_ne_outOfFuel (by omega)

theorem parseNumber_ne_outOfFuel (c : Nat) (i : Input) : parseNumber T c i ≠ .error .outOfFuel := by
  apply bind_ne_outOfFuel numberLoop_ne_outOfFuel
  intro res _ h
  cases h

theorem literal_ne_outOfFuel (c : Nat) (word : Str) (v : Dynamic F) (i : Input) :
    literal c word v i ≠ .error .outOfFuel := by
  unfold literal
  split <;> simp

/-- Two rounds for each character left are enough. -/
structure Enough (T : Target F) (n : Nat) : Prop where
  value : ∀ i, 2 * i.rest.length + 1 ≤ n → parseRec T n i ≠ .error .outOfFuel
  array : ∀ arr comma i, 2 * i.rest.length + 2 ≤ n → parseArray T n arr comma i ≠ .error .outOfFuel
  object : ∀ obj field comma i, 2 * i.rest.length + 2 ≤ n → parseObject T n obj field comma i ≠ .error .outOfFuel

theorem enough_value {n : Nat} (ih : Enough T n) (i : Input) (h : 2 * i.rest.length + 1 ≤ n + 1) :
    parseRec T (n + 1) i ≠ .error .outOfFuel := by
  obtain ⟨p, s⟩ := i
  cases s with
  | nil => simp [parseRec]
  | cons c s =>
    simp only [List.length_cons] at h
    rw [parseRec]
    split
    · exact ih.value _ (by simp only; omega)
    split
    · exact ih.object _ _ _ _ (by simp only; omega)
    split
    · exact ih.array _ _ _ (by simp only; omega)
    split
    · exact literal_ne_outOfFuel _ _ _ _
    split
    · exact literal_ne_outOfFuel _ _ _ _
    split
    · exact literal_ne_outOfFuel _ _ _ _
    split
    · apply bind_ne_outOfFuel (parseString_ne_outOfFuel _)
      intro res _ h
      cases h
    split
    · exact parseNumber_ne_outOfFuel _ _
    · simp

theorem enough_array {n : Nat} (ih : Enough T n) (arr : List (Dynamic F)) (comma : Option Bool) (i : Input)
    (h : 2 * i.rest.length + 2 ≤ n + 1) : parseArray T (n + 1) arr comma i ≠ .error .outOfFuel := by
  obtain ⟨p, s⟩ := i
  cases s with
  | nil => simp [parseArray]
  | cons c s =>
    simp only [List.length_cons] at h
    rw [parseArray]
    split
    · exact ih.array _ _ _ (by simp only; omega)
    split
    · split <;> simp
    split
    · split
      · exact ih.array _ _ _ (by simp only; omega)
      · simp
    split
    · simp
    · apply bind_ne_outOfFuel (ih.value _ (by simp only [List.length_cons]; omega))
      intro res hp
      have := ((sound n).value _ _ _ hp).shorter
      simp only [List.length_cons] at this
      exact ih.array _ _ _ (by omega)

theorem enough_object {n : Nat} (ih : Enough T n) (obj : List (Str × Dynamic F)) (field : Option Str)
    (comma : Option Bool) (i : Input) (h : 2 * i.rest.length + 2 ≤ n + 1) :
    parseObject T (n + 1) obj field comma i ≠ .error .outOfFuel := by
  obtain ⟨p, s⟩ := i
  cases s with
  | nil => simp [parseObject]
  | cons c s =>
    simp only [List.length_cons] at h
    unfold parseObject
    split
    · exact ih.object _ _ _ _ (by simp only; omega)
    split
    · split <;> simp
    split
    · cases field with
      | none => simp
      | some name =>
        apply bind_ne_outOfFuel (ih.value _ (by simp only; omega))
        intro res hp
        have := ((sound n).value _ _ _ hp).shorter
        simp only at this
        exact ih.object _ _ _ _ (by omega)
    split
    · split
      · exact ih.object _ _ _ _ (by simp only; omega)
      · simp
    split
    · split
      · simp
      · apply bind_ne_outOfFuel (parseString_ne_outOfFuel _)
        intro res hp
        have := parseString_shorter hp
        simp only at this
        exact ih.object _ _ _ _ (by omega)
    · simp

theorem enough (n : Nat) : Enough T n := by
  induction n with
  | zero => exact ⟨by omega, by omega, by omega⟩
  | succ n ih => exact ⟨enough_value ih, enough_array ih, enough_object ih⟩

/-! ## The texts on which `parse` returns -/

theorem trailing_none {s : Str} {pos : Nat} : trailing pos s = none ↔ Space s := by
  induction s generalizing pos with
  | nil => simp [trailing, Space]
  | cons c s ih =>
    unfold trailing
    constructor
    · intro h
      split at h
      · next hc => exact Space.of_cons hc (ih.mp h)
      · cases h
    · intro h
      rw [if_pos h.cons.1]
      exact ih.mpr h.cons.2

theorem trailing_ne_outOfFuel {s : Str} {pos : Nat} : trailing pos s ≠ some .outOfFuel := by
  induction s generalizing pos with
  | nil => simp [trailing]
  | cons c s ih =>
    unfold trailing
    split
    · exact ih
    · simp

theorem doParse_parseRec {n : Nat} {i j : Input} {v : Dynamic F} (h : parseRec T n i = .ok (v, j)) :
    doParse T n i = match trailing j.pos j.rest with
      | some err => .error err
      | none => .ok v := by
  unfold doParse
  rw [h]
  rfl

/-- The rounds that `parse` allows are enough for every text. -/
theorem parse_ne_outOfFuel (str : Str) : parse T str ≠ .error .outOfFuel := by
  have henough := (enough (T := T) (2 * str.length + 1)).value ⟨0, str⟩ (by simp)
  unfold parse
  cases hp : parseRec T (2 * str.length + 1) ⟨0, str⟩ with
  | error e =>
    unfold doParse
    rw [hp] at henough ⊢
    intro h
    cases h
    exact henough rfl
  | ok res =>
    rw [doParse_parseRec hp]
    cases ht : trailing res.2.pos res.2.rest with
    | none => simp
    | some err =>
      intro h
      cases h
      exact trailing_ne_outOfFuel ht

theorem parse_ok {str : Str} {v : Dynamic F} :
    parse T str = .ok v ↔ ∃ t, IsText (taken T) str t ∧ v = t.value T := by
  constructor
  · intro h
    unfold parse at h
    cases hp : parseRec T (2 * str.length + 1) ⟨0, str⟩ with
    | error e =>
      unfold doParse at h
      rw [hp] at h
      cases h
    | ok res =>
      obtain ⟨w, k⟩ := res
      rw [doParse_parseRec hp] at h
      obtain ⟨ws, t, hw, ht, hs, hv⟩ := (sound _).value _ _ _ hp
      split at h
      · cases h
      · next htr =>
        cases h
        exact ⟨t, ⟨ht, ws, k.rest, hw, trailing_none.mp htr, hs⟩, hv⟩
  · rintro ⟨t, ⟨ht, before, after, hb, ha, rfl⟩, rfl⟩
    have hr : Stops after := by
      have := stops_space ha (s := []) (by simp [Stops])
      rwa [List.append_nil] at this
    obtain ⟨q, hq⟩ := accepts t ht hr before _ 0 hb (le_refl _)
    unfold parse
    rw [doParse_parseRec hq, trailing_none.mpr ha]

/-! ## The values -/

theorem stringValue_denotes {ps : List Piece} (h : rfc8259.string ps) : StringDenotes T ps (stringValue T ps) := by
  intro m hm
  exact StringState.readAll_meaning h hm rfl

theorem numberValue_denotes (point : Bool) (text : Str) : NumberDenotes T text (numberValue T point text) := by
  unfold numberValue NumberDenotes
  dsimp only
  split_ifs with hp he
  · exact Or.inl rfl
  · exact Or.inr ⟨_, rfl, he⟩
  · exact Or.inl rfl

mutual

/-- The value that is read from a tree of RFC 8259 is the value that the tree denotes. -/
theorem value_denotes : ∀ t : Cst, t.Allowed rfc8259 → t.Denotes T (t.value T)
  | .null, _ => rfl
  | .bool _, _ => rfl
  | .str _, h => ⟨_, rfl, stringValue_denotes h⟩
  | .num text, _ => numberValue_denotes _ text
  | .emptyArr _, _ => rfl
  | .arr _ v _ rest, ⟨_, hv, _, hi⟩ => ⟨_, _, rfl, value_denotes v hv, values_denote rest hi⟩
  | .emptyObj _, _ => rfl
  | .obj _ _ _ _ v _ rest, ⟨_, hk, _, _, hv, _, hm⟩ =>
    ⟨_, _, _, rfl, stringValue_denotes hk, value_denotes v hv, fields_denote rest _ hm⟩

theorem values_denote : ∀ rest : Items, rest.Allowed rfc8259 → rest.Denotes T (rest.values T)
  | .nil, _ => rfl
  | .cons _ v _ rest, ⟨_, hv, _, hi⟩ => ⟨_, _, rfl, value_denotes v hv, values_denote rest hi⟩

theorem fields_denote : ∀ (rest : Members) (before : List (Str × Dynamic F)), rest.Allowed rfc8259 →
    rest.Denotes T before (rest.fields T before)
  | .nil, _, _ => rfl
  | .cons _ _ _ _ v _ rest, _, ⟨_, hk, _, _, hv, _, hm⟩ =>
    ⟨_, _, stringValue_denotes hk, value_denotes v hv, fields_denote rest _ hm⟩

end

/-! ## Conformance -/

theorem rfc_le_any : rfc8259.Le anyTokens where
  piece p h := by
    cases p with
    | raw c => exact h.2
    | escape c =>
      rintro rfl
      cases h
    | unicode => trivial
  number _ h := NumberState.rfc_any h

theorem IsText.mono {G G' : Tokens} (le : G.Le G') {s : Str} {t : Cst} (h : IsText G s t) : IsText G' s t :=
  ⟨h.1.mono le, h.2⟩

/-- On `s` the parser does what RFC 8259 says: it returns on the texts only, and a value that they denote. -/
def Conforms (T : Target F) (s : Str) : Prop :=
  ((∃ v, parse T s = .ok v) ↔ ∃ t, IsText rfc8259 s t) ∧
    ∀ t v, IsText rfc8259 s t → parse T s = .ok v → t.Denotes T v

/-- A target that has integers only. -/
def integers : Target Int where
  parseFloat
    | [] => 0
    | c :: s =>
      if c = '-'.toNat then -(s.foldl (fun n d => n * 10 + (d - '0'.toNat)) 0 : Nat)
      else ((c :: s).foldl (fun n d => n * 10 + (d - '0'.toNat)) 0 : Nat)
  int f := f
  ofInt i := i
  eq a b := a == b
  addChar c := [c]
  addChar_bmp _ _ := rfl
  parseIntNoDigit := none

end EvilHaxe.Json
