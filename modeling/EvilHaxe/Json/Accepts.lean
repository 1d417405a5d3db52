/-
What the parser reads: a text of the grammar of its own tokens, and of the tree of that text the value.
-/
import EvilHaxe.Json.Unambiguous

namespace EvilHaxe.Json

variable {F : Type} {T : Target F}

/-! ## The value that is read from a tree -/

def stringValue (T : Target F) (ps : List Piece) : Str := (StringState.start.readAll T ps).result T

mutual

def Cst.value (T : Target F) : Cst → Dynamic F
  | .null => .null
  | .bool b => .bool b
  | .str ps => .str (stringValue T ps)
  | .num text => numberValue T (decide ('.'.toNat ∈ text)) text
  | .emptyArr _ => .arr []
  | .arr _ v _ rest => .arr (v.value T :: rest.values T)
  | .emptyObj _ => .obj []
  | .obj _ key _ _ v _ rest => .obj (rest.fields T [(stringValue T key, v.value T)])

def Items.values (T : Target F) : Items → List (Dynamic F)
  | .nil => []
  | .cons _ v _ rest => v.value T :: rest.values T

def Members.fields (T : Target F) : Members → List (Str × Dynamic F) → List (Str × Dynamic F)
  | .nil, before => before
  | .cons _ key _ _ v _ rest, before => rest.fields T (setField before (stringValue T key) (v.value T))

end

/-! ## Tokens -/

theorem parseString_ok {i j : Input} {v : Str} (h : parseString T i = .ok (v, j)) :
    ∃ ps, (taken T).string ps ∧ '"'.toNat :: i.rest = renderString ps ++ j.rest ∧ v = stringValue T ps := by
  obtain ⟨ps, hps, hs, hv⟩ := stringLoop_ok h
  exact ⟨ps, hps, by simp [renderString, hs], hv⟩

theorem parseString_render {ps : List Piece} (h : (taken T).string ps) (p : Nat) (r : Str) :
    ∃ q, parseString T ⟨p, renderPieces ps ++ '"'.toNat :: r⟩ = .ok (stringValue T ps, ⟨q, r⟩) :=
  ⟨_, stringLoop_taken h (by simp only [List.length_append]; omega)⟩

theorem parseNumber_ok {c : Nat} (hc : isDigit c = true ∨ c = '-'.toNat) {i j : Input} {v : Dynamic F}
    (h : parseNumber T c i = .ok (v, j)) :
    ∃ text, TakenNumber text ∧ c :: i.rest = text ++ j.rest ∧ v = (Cst.num text).value T := by
  unfold parseNumber at h
  cases hl : numberLoop (i.pos - 1) (NumberState.start c) [c] i.pos i.rest with
  | error e => rw [hl] at h; cases h
  | ok res =>
    obtain ⟨text, st, k⟩ := res
    rw [hl] at h
    cases h
    obtain ⟨s, hs, rfl, hrun, hd, hn, -⟩ := numberLoop_ok hl
    have phase := NumberState.phase_run (NumberState.phase_start hc) hn hrun
    obtain ⟨ht, hp⟩ := NumberState.phase_taken phase hd
    refine ⟨_, ht, by simp [hs], ?_⟩
    have : decide ('.'.toNat ∈ [c] ++ s) = st.point := by
      rw [Bool.eq_iff_iff, decide_eq_true_eq]
      exact hp
    simp only [Cst.value, this]

theorem parseNumber_render {text : Str} (h : TakenNumber text) {r : Str} (hr : Stops r) (p : Nat) :
    ∃ c s q, text = c :: s ∧ (isDigit c = true ∨ c = '-'.toNat) ∧
      parseNumber T c ⟨p, s ++ r⟩ = .ok ((Cst.num text).value T, ⟨q, r⟩) := by
  obtain ⟨c, s, rfl, hc, hn⟩ := NumberState.taken_any h
  obtain ⟨st, hrun, hd⟩ := NumberState.taken_run h
  have hloop := numberLoop_run (p - 1) p [c] hrun hd hn hr
  refine ⟨c, s, p + s.length, rfl, hc, ?_⟩
  unfold parseNumber
  simp only [hloop]
  have phase := NumberState.phase_run (NumberState.phase_start hc) hn hrun
  obtain ⟨-, hp⟩ := NumberState.phase_taken phase hd
  have : decide ('.'.toNat ∈ c :: s) = st.point := by
    rw [Bool.eq_iff_iff, decide_eq_true_eq]
    exact hp
  simp only [Cst.value, this]
  rfl

theorem literal_ok {c : Nat} {word : Str} {w v : Dynamic F} {i j : Input} (h : literal c word w i = .ok (v, j)) :
    i.rest = word ++ j.rest ∧ v = w := by
  unfold literal at h
  split at h
  · next hp =>
    cases h
    obtain ⟨s, hs⟩ := List.isPrefixOf_iff_prefix.mp hp
    simp [← hs]
  · cases h

theorem literal_render (c : Nat) (word : Str) (v : Dynamic F) (p : Nat) (r : Str) :
    ∃ q, literal c word v ⟨p, word ++ r⟩ = .ok (v, ⟨q, r⟩) := by
  refine ⟨p + word.length, ?_⟩
  unfold literal
  rw [if_pos (List.isPrefixOf_iff_prefix.mpr (List.prefix_append word r))]
  simp

/-! ## What is read is a text -/

/-- What `parseRec` has read, from `s` to `r`. -/
def ReadsValue (T : Target F) (s r : Str) (v : Dynamic F) : Prop :=
  ∃ (ws : Str) (t : Cst), Space ws ∧ t.Allowed (taken T) ∧ s = ws ++ (t.render ++ r) ∧ v = t.value T

/-- From the end of an item to the end of the array. -/
def ReadsItems (T : Target F) (s r : Str) (vs : List (Dynamic F)) : Prop :=
  ∃ (after : Str) (rest : Items), Space after ∧ rest.Allowed (taken T) ∧ s = after ++ (rest.render ++ ']'.toNat :: r) ∧
    vs = rest.values T

/-- From where an item is due to the end of the array. -/
def ReadsItem (T : Target F) (s r : Str) (vs : List (Dynamic F)) : Prop :=
  ∃ s' v ws, ReadsValue T s s' v ∧ ReadsItems T s' r ws ∧ vs = v :: ws

def ReadsMembers (T : Target F) (s r : Str) (before fields : List (Str × Dynamic F)) : Prop :=
  ∃ (after : Str) (rest : Members), Space after ∧ rest.Allowed (taken T) ∧
    s = after ++ (rest.render ++ '\x7d'.toNat :: r) ∧
    fields = rest.fields T before

/-- From the end of the name `key` to the end of the object. -/
def ReadsField (T : Target F) (s r : Str) (key : Str) (before fields : List (Str × Dynamic F)) : Prop :=
  ∃ colon s1 s2 v, Space colon ∧ s = colon ++ ':'.toNat :: s1 ∧ ReadsValue T s1 s2 v ∧
    ReadsMembers T s2 r (setField before key v) fields

def ReadsMember (T : Target F) (s r : Str) (before fields : List (Str × Dynamic F)) : Prop :=
  ∃ ws key s', Space ws ∧ (taken T).string key ∧ s = ws ++ (renderString key ++ s') ∧
    ReadsField T s' r (stringValue T key) before fields

theorem Space.of_cons {c : Nat} {ws : Str} (hc : isSpace c = true) (h : Space ws) : Space (c :: ws) := by
  intro x hx
  rcases List.mem_cons.mp hx with rfl | hx
  · exact hc
  · exact h x hx

/-- What holds of the loops with `n` rounds left. -/
structure Sound (T : Target F) (n : Nat) : Prop where
  value : ∀ i j v, parseRec T n i = .ok (v, j) → ReadsValue T i.rest j.rest v
  items : ∀ arr i j v, parseArray T n arr (some true) i = .ok (v, j) →
    ∃ vs, v = .arr (arr ++ vs) ∧ ReadsItems T i.rest j.rest vs
  item : ∀ arr i j v, parseArray T n arr (some false) i = .ok (v, j) →
    ∃ vs, v = .arr (arr ++ vs) ∧ ReadsItem T i.rest j.rest vs
  array : ∀ i j v, parseArray T n [] none i = .ok (v, j) →
    ∃ vs, v = .arr vs ∧ ((∃ ws, Space ws ∧ i.rest = ws ++ ']'.toNat :: j.rest ∧ vs = []) ∨ ReadsItem T i.rest j.rest vs)
  members : ∀ obj i j v, parseObject T n obj none (some true) i = .ok (v, j) →
    ∃ fields, v = .obj fields ∧ ReadsMembers T i.rest j.rest obj fields
  member : ∀ obj i j v, parseObject T n obj none (some false) i = .ok (v, j) →
    ∃ fields, v = .obj fields ∧ ReadsMember T i.rest j.rest obj fields
  field : ∀ obj key comma i j v, comma ≠ some true → parseObject T n obj (some key) comma i = .ok (v, j) →
    ∃ fields, v = .obj fields ∧ ReadsField T i.rest j.rest key obj fields
  object : ∀ i j v, parseObject T n [] none none i = .ok (v, j) →
    ∃ fields, v = .obj fields ∧
      ((∃ ws, Space ws ∧ i.rest = ws ++ '\x7d'.toNat :: j.rest ∧ fields = []) ∨ ReadsMember T i.rest j.rest [] fields)

section Readings

variable {c : Nat} {s r : Str} (hc : isSpace c = true)
include hc

theorem ReadsValue.space {v : Dynamic F} : ReadsValue T s r v → ReadsValue T (c :: s) r v := by
  rintro ⟨ws, t, hw, ht, rfl, hv⟩
  exact ⟨c :: ws, t, hw.of_cons hc, ht, rfl, hv⟩

theorem ReadsItems.space {vs : List (Dynamic F)} : ReadsItems T s r vs → ReadsItems T (c :: s) r vs := by
  rintro ⟨ws, rest, hw, hr, rfl, hv⟩
  exact ⟨c :: ws, rest, hw.of_cons hc, hr, rfl, hv⟩

theorem ReadsItem.space {vs : List (Dynamic F)} : ReadsItem T s r vs → ReadsItem T (c :: s) r vs := by
  rintro ⟨s', v, ws, hv, hi⟩
  exact ⟨s', v, ws, hv.space hc, hi⟩

theorem ReadsMembers.space {before fields : List (Str × Dynamic F)} :
    ReadsMembers T s r before fields → ReadsMembers T (c :: s) r before fields := by
  rintro ⟨ws, rest, hw, hr, rfl, hv⟩
  exact ⟨c :: ws, rest, hw.of_cons hc, hr, rfl, hv⟩

theorem ReadsField.space {key : Str} {before fields : List (Str × Dynamic F)} :
    ReadsField T s r key before fields → ReadsField T (c :: s) r key before fields := by
  rintro ⟨ws, s1, s2, v, hw, rfl, hv⟩
  exact ⟨c :: ws, s1, s2, v, hw.of_cons hc, rfl, hv⟩

theorem ReadsMember.space {before fields : List (Str × Dynamic F)} :
    ReadsMember T s r before fields → ReadsMember T (c :: s) r before fields := by
  rintro ⟨ws, key, s', hw, hk, rfl, hf⟩
  exact ⟨c :: ws, key, s', hw.of_cons hc, hk, rfl, hf⟩

end Readings

theorem ReadsValue.token {t : Cst} (ht : t.Allowed (taken T)) {s r : Str} (h : s = t.render ++ r) :
    ReadsValue T s r (t.value T) :=
  ⟨[], t, space_nil, ht, h, rfl⟩

/-- The array from its bracket on. -/
theorem ReadsItem.array {s r : Str} {vs : List (Dynamic F)} (h : ReadsItem T s r vs) :
    ReadsValue T ('['.toNat :: s) r (.arr vs) := by
  obtain ⟨s', v, ws, ⟨before, t, hb, ht, rfl, rfl⟩, ⟨after, rest, ha, hr, rfl, rfl⟩, rfl⟩ := h
  apply ReadsValue.token (t := .arr before t after rest) ⟨hb, ht, ha, hr⟩
  simp [Cst.render]

theorem ReadsMember.object {s r : Str} {fields : List (Str × Dynamic F)} (h : ReadsMember T s r [] fields) :
    ReadsValue T ('\x7b'.toNat :: s) r (.obj fields) := by
  obtain ⟨before, key, s', hb, hk, rfl, colon, s1, s2, v, hc, rfl, ⟨before', t, hb', ht, rfl, rfl⟩,
    ⟨after, rest, ha, hr, rfl, rfl⟩⟩ := h
  apply ReadsValue.token (t := .obj before key colon before' t after rest) ⟨hb, hk, hc, hb', ht, ha, hr⟩
  simp [Cst.render]

/-- The items from the comma on. -/
theorem ReadsItem.items {s r : Str} {vs : List (Dynamic F)} (h : ReadsItem T s r vs) :
    ReadsItems T (','.toNat :: s) r vs := by
  obtain ⟨s', v, ws, ⟨before, t, hb, ht, rfl, rfl⟩, ⟨after, rest, ha, hr, rfl, rfl⟩, rfl⟩ := h
  refine ⟨[], .cons before t after rest, space_nil, ⟨hb, ht, ha, hr⟩, ?_, rfl⟩
  simp [Items.render]

theorem ReadsMember.members {s r : Str} {before fields : List (Str × Dynamic F)}
    (h : ReadsMember T s r before fields) : ReadsMembers T (','.toNat :: s) r before fields := by
  obtain ⟨ws, key, s', hb, hk, rfl, colon, s1, s2, v, hc, rfl, ⟨before', t, hb', ht, rfl, rfl⟩,
    ⟨after, rest, ha, hr, rfl, rfl⟩⟩ := h
  refine ⟨[], .cons ws key colon before' t after rest, space_nil, ⟨hb, hk, hc, hb', ht, ha, hr⟩, ?_, rfl⟩
  simp [Members.render]

/-! ### The loops, one round -/

theorem sound_value {n : Nat} (ih : Sound T n) {i j : Input} {v : Dynamic F}
    (h : parseRec T (n + 1) i = .ok (v, j)) : ReadsValue T i.rest j.rest v := by
  obtain ⟨p, s⟩ := i
  cases s with
  | nil => cases h
  | cons c s =>
    rw [parseRec] at h
    split at h
    · next hc => exact (ih.value _ _ _ h).space hc
    split at h
    · next hc =>
      subst hc
      obtain ⟨fields, rfl, ⟨ws, hw, hs, rfl⟩ | hm⟩ := ih.object _ _ _ h
      · exact ReadsValue.token (t := .emptyObj ws) hw (by simp [Cst.render, show s = _ from hs])
      · exact hm.object
    split at h
    · next hc =>
      subst hc
      obtain ⟨vs, rfl, ⟨ws, hw, hs, rfl⟩ | hi⟩ := ih.array _ _ _ h
      · exact ReadsValue.token (t := .emptyArr ws) hw (by simp [Cst.render, show s = _ from hs])
      · exact hi.array
    split at h
    · next hc =>
      subst hc
      obtain ⟨hs, rfl⟩ := literal_ok h
      exact ReadsValue.token (t := .bool true) trivial (by simp [Cst.render, show s = _ from hs])
    split at h
    · next hc =>
      subst hc
      obtain ⟨hs, rfl⟩ := literal_ok h
      exact ReadsValue.token (t := .bool false) trivial (by simp [Cst.render, show s = _ from hs])
    split at h
    · next hc =>
      subst hc
      obtain ⟨hs, rfl⟩ := literal_ok h
      exact ReadsValue.token (t := .null) trivial (by simp [Cst.render, show s = _ from hs])
    split at h
    · next hc =>
      subst hc
      cases hp : parseString T ⟨p + 1, s⟩ with
      | error e => rw [hp] at h; cases h
      | ok res =>
        obtain ⟨text, k⟩ := res
        rw [hp] at h
        cases h
        obtain ⟨ps, hps, hs, rfl⟩ := parseString_ok hp
        exact ReadsValue.token (t := .str ps) hps hs
    split at h
    · next hc =>
      obtain ⟨text, ht, hs, rfl⟩ := parseNumber_ok hc h
      exact ReadsValue.token (t := .num text) ht hs
    · cases h

/-- The round that reads an item. -/
theorem sound_read {n : Nat} (ih : Sound T n) {arr : List (Dynamic F)} {i j : Input} {v : Dynamic F}
    (h : (do let (v, i) ← parseRec T n i; parseArray T n (arr ++ [v]) (some true) i) = Except.ok (v, j)) :
    ∃ vs, v = .arr (arr ++ vs) ∧ ReadsItem T i.rest j.rest vs := by
  cases hp : parseRec T n i with
  | error e => rw [hp] at h; cases h
  | ok res =>
    obtain ⟨w, k⟩ := res
    rw [hp] at h
    obtain ⟨vs, rfl, hi⟩ := ih.items _ _ _ _ h
    exact ⟨w :: vs, by simp, k.rest, w, vs, ih.value _ _ _ hp, hi, rfl⟩

theorem sound_items {n : Nat} (ih : Sound T n) {arr : List (Dynamic F)} {i j : Input} {v : Dynamic F}
    (h : parseArray T (n + 1) arr (some true) i = .ok (v, j)) :
    ∃ vs, v = .arr (arr ++ vs) ∧ ReadsItems T i.rest j.rest vs := by
  obtain ⟨p, s⟩ := i
  cases s with
  | nil => cases h
  | cons c s =>
    rw [parseArray] at h
    split at h
    · next hc =>
      obtain ⟨vs, hv, hi⟩ := ih.items _ _ _ _ h
      exact ⟨vs, hv, hi.space hc⟩
    split at h
    · next hc =>
      subst hc
      cases h
      exact ⟨[], by simp, [], .nil, space_nil, trivial, rfl, rfl⟩
    split at h
    · next hc =>
      subst hc
      obtain ⟨vs, hv, hi⟩ := ih.item _ _ _ _ h
      exact ⟨vs, hv, hi.items⟩
    · cases h

theorem sound_item {n : Nat} (ih : Sound T n) {arr : List (Dynamic F)} {i j : Input} {v : Dynamic F}
    (h : parseArray T (n + 1) arr (some false) i = .ok (v, j)) :
    ∃ vs, v = .arr (arr ++ vs) ∧ ReadsItem T i.rest j.rest vs := by
  obtain ⟨p, s⟩ := i
  cases s with
  | nil => cases h
  | cons c s =>
    rw [parseArray] at h
    split at h
    · next hc =>
      obtain ⟨vs, hv, hi⟩ := ih.item _ _ _ _ h
      exact ⟨vs, hv, hi.space hc⟩
    split at h
    · cases h
    split at h
    · cases h
    · exact sound_read ih h

theorem sound_array {n : Nat} (ih : Sound T n) {i j : Input} {v : Dynamic F}
    (h : parseArray T (n + 1) [] none i = .ok (v, j)) :
    ∃ vs, v = .arr vs ∧
      ((∃ ws, Space ws ∧ i.rest = ws ++ ']'.toNat :: j.rest ∧ vs = []) ∨ ReadsItem T i.rest j.rest vs) := by
  obtain ⟨p, s⟩ := i
  cases s with
  | nil => cases h
  | cons c s =>
    rw [parseArray] at h
    split at h
    · next hc =>
      obtain ⟨vs, hv, ⟨ws, hw, hs, hvs⟩ | hi⟩ := ih.array _ _ _ h
      · exact ⟨vs, hv, Or.inl ⟨c :: ws, hw.of_cons hc, by rw [show s = _ from hs]; rfl, hvs⟩⟩
      · exact ⟨vs, hv, Or.inr (hi.space hc)⟩
    split at h
    · next hc =>
      subst hc
      cases h
      exact ⟨[], rfl, Or.inl ⟨[], space_nil, rfl, rfl⟩⟩
    split at h
    · cases h
    · obtain ⟨vs, hv, hi⟩ := sound_read ih h
      exact ⟨vs, hv, Or.inr hi⟩

/-- The round that reads a name. -/
theorem sound_name {n : Nat} (ih : Sound T n) {obj : List (Str × Dynamic F)} {comma : Option Bool}
    (hcomma : comma ≠ some true) {p : Nat} {s : Str} {j : Input} {v : Dynamic F}
    (h : (do let (name, i) ← parseString T ⟨p, s⟩; parseObject T n obj (some name) comma i) = Except.ok (v, j)) :
    ∃ fields, v = .obj fields ∧ ReadsMember T ('"'.toNat :: s) j.rest obj fields := by
  cases hp : parseString T ⟨p, s⟩ with
  | error e => rw [hp] at h; cases h
  | ok res =>
    obtain ⟨name, k⟩ := res
    rw [hp] at h
    obtain ⟨ps, hps, hs, rfl⟩ := parseString_ok hp
    obtain ⟨fields, rfl, hf⟩ := ih.field _ _ _ _ _ _ hcomma h
    exact ⟨fields, rfl, [], ps, k.rest, space_nil, hps, hs, hf⟩

theorem sound_members {n : Nat} (ih : Sound T n) {obj : List (Str × Dynamic F)} {i j : Input} {v : Dynamic F}
    (h : parseObject T (n + 1) obj none (some true) i = .ok (v, j)) :
    ∃ fields, v = .obj fields ∧ ReadsMembers T i.rest j.rest obj fields := by
  obtain ⟨p, s⟩ := i
  cases s with
  | nil => cases h
  | cons c s =>
    rw [parseObject] at h
    split at h
    · next hc =>
      obtain ⟨fields, hv, hm⟩ := ih.members _ _ _ _ h
      exact ⟨fields, hv, hm.space hc⟩
    split at h
    · next hc =>
      subst hc
      cases h
      exact ⟨obj, rfl, [], .nil, space_nil, trivial, rfl, rfl⟩
    split at h
    · cases h
    split at h
    · next hc =>
      subst hc
      obtain ⟨fields, hv, hm⟩ := ih.member _ _ _ _ h
      exact ⟨fields, hv, hm.members⟩
    split at h
    · cases h
    · cases h

theorem sound_member {n : Nat} (ih : Sound T n) {obj : List (Str × Dynamic F)} {i j : Input} {v : Dynamic F}
    (h : parseObject T (n + 1) obj none (some false) i = .ok (v, j)) :
    ∃ fields, v = .obj fields ∧ ReadsMember T i.rest j.rest obj fields := by
  obtain ⟨p, s⟩ := i
  cases s with
  | nil => cases h
  | cons c s =>
    rw [parseObject] at h
    split at h
    · next hc =>
      obtain ⟨fields, hv, hm⟩ := ih.member _ _ _ _ h
      exact ⟨fields, hv, hm.space hc⟩
    split at h
    · cases h
    split at h
    · cases h
    split at h
    · cases h
    split at h
    · next hc =>
      subst hc
      exact sound_name ih (by simp) h
    · cases h

theorem sound_field {n : Nat} (ih : Sound T n) {obj : List (Str × Dynamic F)} {key : Str} {comma : Option Bool}
    {i j : Input} {v : Dynamic F} (hcomma : comma ≠ some true)
    (h : parseObject T (n + 1) obj (some key) comma i = .ok (v, j)) :
    ∃ fields, v = .obj fields ∧ ReadsField T i.rest j.rest key obj fields := by
  obtain ⟨p, s⟩ := i
  cases s with
  | nil => cases h
  | cons c s =>
    rw [parseObject] at h
    split at h
    · next hc =>
      obtain ⟨fields, hv, hf⟩ := ih.field _ _ _ _ _ _ hcomma h
      exact ⟨fields, hv, hf.space hc⟩
    split at h
    · cases h
    split at h
    · next hc =>
      subst hc
      cases hp : parseRec T n ⟨p + 1, s⟩ with
      | error e => simp only [hp] at h; cases h
      | ok res =>
        obtain ⟨w, k⟩ := res
        simp only [hp] at h
        obtain ⟨fields, hv, hm⟩ := ih.members _ _ _ _ h
        exact ⟨fields, hv, [], s, k.rest, w, space_nil, rfl, ih.value _ _ _ hp, hm⟩
    split at h
    · cases h
    split at h
    · simp at h
    · cases h

theorem sound_object {n : Nat} (ih : Sound T n) {i j : Input} {v : Dynamic F}
    (h : parseObject T (n + 1) [] none none i = .ok (v, j)) :
    ∃ fields, v = .obj fields ∧
      ((∃ ws, Space ws ∧ i.rest = ws ++ '\x7d'.toNat :: j.rest ∧ fields = []) ∨
        ReadsMember T i.rest j.rest [] fields) := by
  obtain ⟨p, s⟩ := i
  cases s with
  | nil => cases h
  | cons c s =>
    rw [parseObject] at h
    split at h
    · next hc =>
      obtain ⟨fields, hv, ⟨ws, hw, hs, hvs⟩ | hm⟩ := ih.object _ _ _ h
      · exact ⟨fields, hv, Or.inl ⟨c :: ws, hw.of_cons hc, by rw [show s = _ from hs]; rfl, hvs⟩⟩
      · exact ⟨fields, hv, Or.inr (hm.space hc)⟩
    split at h
    · next hc =>
      subst hc
      cases h
      exact ⟨[], rfl, Or.inl ⟨[], space_nil, rfl, rfl⟩⟩
    split at h
    · cases h
    split at h
    · cases h
    split at h
    · next hc =>
      subst hc
      obtain ⟨fields, hv, hm⟩ := sound_name ih (by simp) h
      exact ⟨fields, hv, Or.inr hm⟩
    · cases h

theorem sound (n : Nat) : Sound T n := by
  induction n with
  | zero => constructor <;> intros <;> contradiction
  | succ n ih =>
    exact {
      value := fun _ _ _ h => sound_value ih h
      items := fun _ _ _ _ h => sound_items ih h
      item := fun _ _ _ _ h => sound_item ih h
      array := fun _ _ _ h => sound_array ih h
      members := fun _ _ _ _ h => sound_members ih h
      member := fun _ _ _ _ h => sound_member ih h
      field := fun _ _ _ _ _ _ hcomma h => sound_field ih hcomma h
      object := fun _ _ _ h => sound_object ih h }

end EvilHaxe.Json

/-! The other direction: the parser takes every text of the grammar of its tokens, and its rounds never run out. -/

namespace EvilHaxe.Json

variable {F : Type} {T : Target F}

/-! ## Whitespace -/

theorem parseRec_space {ws : Str} (hw : Space ws) (n p : Nat) (s : Str) :
    parseRec T (ws.length + n) ⟨p, ws ++ s⟩ = parseRec T n ⟨p + ws.length, s⟩ := by
  induction ws generalizing p with
  | nil => simp
  | cons c ws ih =>
    rw [List.length_cons, Nat.add_right_comm, List.cons_append, parseRec, if_pos hw.cons.1, ih hw.cons.2,
      Nat.add_assoc, Nat.add_comm 1]

theorem parseArray_space {ws : Str} (hw : Space ws) (n p : Nat) (s : Str) (arr : List (Dynamic F))
    (comma : Option Bool) :
    parseArray T (ws.length + n) arr comma ⟨p, ws ++ s⟩ = parseArray T n arr comma ⟨p + ws.length, s⟩ := by
  induction ws generalizing p with
  | nil => simp
  | cons c ws ih =>
    rw [List.length_cons, Nat.add_right_comm, List.cons_append, parseArray, if_pos hw.cons.1, ih hw.cons.2,
      Nat.add_assoc, Nat.add_comm 1]

theorem parseObject_space {ws : Str} (hw : Space ws) (n p : Nat) (s : Str) (obj : List (Str × Dynamic F))
    (field : Option Str) (comma : Option Bool) :
    parseObject T (ws.length + n) obj field comma ⟨p, ws ++ s⟩ =
      parseObject T n obj field comma ⟨p + ws.length, s⟩ := by
  induction ws generalizing p with
  | nil => simp
  | cons c ws ih =>
    rw [List.length_cons, Nat.add_right_comm, List.cons_append]
    cases field with
    | none => rw [parseObject, if_pos hw.cons.1, ih hw.cons.2, Nat.add_assoc, Nat.add_comm 1]
    | some name => rw [parseObject, if_pos hw.cons.1, ih hw.cons.2, Nat.add_assoc, Nat.add_comm 1]

theorem taken_le_any : (taken T).Le anyTokens where
  piece p h := by
    cases p with
    | raw c => exact h
    | escape c => exact h.1
    | unicode => trivial
  number _ h := NumberState.taken_any h

/-! ## Values -/

/-- `parseRec` takes the tree `t` before `s`. -/
def Accepts (T : Target F) (t : Cst) (s : Str) : Prop :=
  ∀ ws n p, Space ws → 2 * (ws ++ (t.render ++ s)).length + 1 ≤ n →
    ∃ q, parseRec T n ⟨p, ws ++ (t.render ++ s)⟩ = .ok (t.value T, ⟨q, s⟩)

theorem none_ne (b : Bool) : (none : Option Bool) ≠ some b := by simp

theorem some_false_ne : some false ≠ some true := by simp

theorem parseArray_item {v : Cst} {before s : Str} (arr : List (Dynamic F)) {comma : Option Bool} {n : Nat} (p : Nat)
    (hv : v.Allowed (taken T)) (hb : Space before) (hcomma : comma ≠ some true) (hrec : Accepts T v s)
    (hn : 2 * (before ++ (v.render ++ s)).length + 2 ≤ n) :
    ∃ q m, 2 * s.length + 2 ≤ m ∧ parseArray T n arr comma ⟨p, before ++ (v.render ++ s)⟩ =
      parseArray T m (arr ++ [v.value T]) (some true) ⟨q, s⟩ := by
  have hany := hv.mono taken_le_any
  obtain ⟨s', hs⟩ := render_first hany
  obtain ⟨h1, h2, h3⟩ := first_open hany
  have hlen : (v.render ++ s).length = s'.length + 1 + s.length := by rw [List.length_append, hs]; rfl
  rw [List.length_append] at hn
  obtain ⟨m, rfl⟩ : ∃ m, n = before.length + (m + 1) := ⟨n - before.length - 1, by omega⟩
  obtain ⟨q, hq⟩ := hrec [] m (p + before.length) space_nil (by rw [List.nil_append]; omega)
  refine ⟨q, m, by omega, ?_⟩
  rw [parseArray_space hb]
  rw [List.nil_append] at hq
  have e : v.render ++ s = v.first :: (s' ++ s) := by rw [hs]; rfl
  rw [e] at hq ⊢
  rw [parseArray, if_neg (by simp [h1]), if_neg h2, if_neg h3, if_neg hcomma, hq]
  rfl

theorem parseObject_member {v : Cst} {key : List Piece} {before colon before' s : Str}
    (obj : List (Str × Dynamic F)) {comma : Option Bool} {n : Nat} (p : Nat) (hk : (taken T).string key) (hb : Space
      before) (hc : Space colon)
    (hb' : Space before') (hcomma : comma ≠ some true) (hrec : Accepts T v s)
    (hn : 2 * (before ++ (renderString key ++ (colon ++ (':'.toNat :: (before' ++ (v.render ++ s)))))).length + 2 ≤ n) :
    ∃ q m, 2 * s.length + 2 ≤ m ∧
      parseObject T n obj none comma
          ⟨p, before ++ (renderString key ++ (colon ++ (':'.toNat :: (before' ++ (v.render ++ s)))))⟩ =
        parseObject T m (setField obj (stringValue T key) (v.value T)) none (some true) ⟨q, s⟩ := by
  simp only [List.length_append, List.length_cons, renderString] at hn
  obtain ⟨m, rfl⟩ : ∃ m, n = before.length + (colon.length + (m + 1) + 1) :=
    ⟨n - before.length - colon.length - 2, by omega⟩
  obtain ⟨q, hq⟩ := parseString_render hk (p + before.length + 1)
    (colon ++ (':'.toNat :: (before' ++ (v.render ++ s))))
  obtain ⟨q', hq'⟩ := hrec before' m (q + colon.length + 1) hb' (by simp only [List.length_append]; omega)
  refine ⟨q', m, by omega, ?_⟩
  rw [parseObject_space hb]
  simp only [renderString, List.cons_append, List.append_assoc, List.nil_append]
  have hsome : ¬ ((none : Option Str).isSome = true ∨ comma = some true) := by simp [hcomma]
  rw [parseObject, if_neg (by decide), if_neg (by decide), if_neg (by decide), if_neg (by decide), if_pos rfl,
    if_neg hsome, hq]
  show parseObject T (colon.length + (m + 1)) obj (some (stringValue T key)) comma _ = _
  rw [parseObject_space hc, parseObject, if_neg (by decide), if_neg (by decide), if_pos rfl]
  dsimp only
  rw [hq']
  rfl

mutual

theorem accepts : ∀ (t : Cst) {r : Str}, t.Allowed (taken T) → Stops r → Accepts T t r
  | t, r, ht, hr => by
    intro ws n p hw hn
    obtain ⟨s', hs⟩ := render_first (ht.mono taken_le_any)
    have hlen : (t.render ++ r).length = s'.length + 1 + r.length := by rw [List.length_append, hs]; rfl
    rw [List.length_append] at hn
    obtain ⟨n, rfl⟩ : ∃ m, n = ws.length + (m + 1) := ⟨n - ws.length - 1, by omega⟩
    rw [parseRec_space hw]
    generalize p + ws.length = p
    match t, ht with
    | .null, _ =>
      obtain ⟨q, hq⟩ := literal_render 'n'.toNat ['u'.toNat, 'l'.toNat, 'l'.toNat] (.null : Dynamic F) (p + 1) r
      refine ⟨q, ?_⟩
      show parseRec T (n + 1) ⟨p, 'n'.toNat :: (['u'.toNat, 'l'.toNat, 'l'.toNat] ++ r)⟩ = _
      rw [parseRec, if_neg (by decide), if_neg (by decide), if_neg (by decide), if_neg (by decide),
        if_neg (by decide), if_pos rfl, hq]
      rfl
    | .bool true, _ =>
      obtain ⟨q, hq⟩ := literal_render 't'.toNat ['r'.toNat, 'u'.toNat, 'e'.toNat] (.bool true : Dynamic F) (p + 1) r
      refine ⟨q, ?_⟩
      show parseRec T (n + 1) ⟨p, 't'.toNat :: (['r'.toNat, 'u'.toNat, 'e'.toNat] ++ r)⟩ = _
      rw [parseRec, if_neg (by decide), if_neg (by decide), if_neg (by decide), if_pos rfl, hq]
      rfl
    | .bool false, _ =>
      obtain ⟨q, hq⟩ := literal_render 'f'.toNat ['a'.toNat, 'l'.toNat, 's'.toNat, 'e'.toNat] (.bool false : Dynamic F)
        (p + 1) r
      refine ⟨q, ?_⟩
      show parseRec T (n + 1) ⟨p, 'f'.toNat :: (['a'.toNat, 'l'.toNat, 's'.toNat, 'e'.toNat] ++ r)⟩ = _
      rw [parseRec, if_neg (by decide), if_neg (by decide), if_neg (by decide), if_neg (by decide), if_pos rfl, hq]
      rfl
    | .str ps, ht =>
      obtain ⟨q, hq⟩ := parseString_render ht (p + 1) r
      refine ⟨q, ?_⟩
      simp only [Cst.render, renderString, List.cons_append, List.append_assoc, List.nil_append]
      rw [parseRec, if_neg (by decide), if_neg (by decide), if_neg (by decide), if_neg (by decide),
        if_neg (by decide), if_neg (by decide), if_pos rfl, hq]
      rfl
    | .num text, ht =>
      obtain ⟨c, s, q, rfl, hc, hq⟩ := parseNumber_render ht hr (p + 1)
      obtain ⟨h1, h2, h3, h4, h5, h6, -, -, -, h7⟩ := not_digit_literal hc
      refine ⟨q, ?_⟩
      show parseRec T (n + 1) ⟨p, c :: (s ++ r)⟩ = _
      rw [parseRec, if_neg (by simp [h7]), if_neg h6, if_neg h5, if_neg h2, if_neg h3, if_neg h1, if_neg h4,
        if_pos hc, hq]
    | .emptyArr ws', ht =>
      have hlen' : (Cst.render (.emptyArr ws') ++ r).length = ws'.length + 2 + r.length := by
        simp only [Cst.render, List.length_append, List.length_cons, List.length_nil]
      obtain ⟨m, rfl⟩ : ∃ m, n = ws'.length + (m + 1) := ⟨n - ws'.length - 1, by omega⟩
      refine ⟨p + 1 + ws'.length + 1, ?_⟩
      simp only [Cst.render, List.cons_append, List.append_assoc, List.nil_append]
      rw [parseRec, if_neg (by decide), if_neg (by decide), if_pos rfl, parseArray_space ht, parseArray,
        if_neg (by decide), if_pos rfl, if_neg (by decide)]
      rfl
    | .arr before v after rest, ⟨hb, hv, ha, hi⟩ =>
      have hrec := accepts v hv (stops_space ha (stops_items rest r))
      simp only [Cst.render, List.cons_append, List.append_assoc, List.nil_append, List.length_cons] at hn ⊢
      obtain ⟨q, m, hm, hq⟩ := parseArray_item [] (p + 1) hv hb (none_ne true) hrec (n := n)
        (by omega)
      obtain ⟨q', hq'⟩ := accepts_items rest [v.value T] (p := q) hi ha hm
      refine ⟨q', ?_⟩
      rw [parseRec, if_neg (by decide), if_neg (by decide), if_pos rfl, hq]
      exact hq'
    | .emptyObj ws', ht =>
      have hlen' : (Cst.render (.emptyObj ws') ++ r).length = ws'.length + 2 + r.length := by
        simp only [Cst.render, List.length_append, List.length_cons, List.length_nil]
      obtain ⟨m, rfl⟩ : ∃ m, n = ws'.length + (m + 1) := ⟨n - ws'.length - 1, by omega⟩
      refine ⟨p + 1 + ws'.length + 1, ?_⟩
      simp only [Cst.render, List.cons_append, List.append_assoc, List.nil_append]
      rw [parseRec, if_neg (by decide), if_pos rfl, parseObject_space ht, parseObject, if_neg (by decide), if_pos rfl,
        if_neg (by decide)]
      rfl
    | .obj before key colon before' v after rest, ⟨hb, hk, hc, hb', hv, ha, hm⟩ =>
      have hrec := accepts v hv (stops_space ha (stops_members rest r))
      simp only [Cst.render, List.cons_append, List.append_assoc, List.nil_append, List.length_cons] at hn ⊢
      obtain ⟨q, m, hm', hq⟩ := parseObject_member [] (p + 1) hk hb hc hb' (none_ne true) hrec (n := n)
        (by omega)
      obtain ⟨q', hq'⟩ := accepts_members rest [(stringValue T key, v.value T)] (p := q) hm ha hm'
      refine ⟨q', ?_⟩
      rw [parseRec, if_neg (by decide), if_pos rfl, hq]
      exact hq'

theorem accepts_items : ∀ (rest : Items) (arr : List (Dynamic F)) {after r : Str} {n p : Nat},
    rest.Allowed (taken T) → Space after →
    2 * (after ++ (rest.render ++ ']'.toNat :: r)).length + 2 ≤ n →
    ∃ q, parseArray T n arr (some true) ⟨p, after ++ (rest.render ++ ']'.toNat :: r)⟩ =
      .ok (.arr (arr ++ rest.values T), ⟨q, r⟩)
  | .nil, arr, after, r, n, p, hi, ha, hn => by
    rw [List.length_append] at hn
    obtain ⟨m, rfl⟩ : ∃ m, n = after.length + (m + 1) := ⟨n - after.length - 1, by omega⟩
    refine ⟨p + after.length + 1, ?_⟩
    rw [parseArray_space ha]
    show parseArray T (m + 1) arr (some true) ⟨p + after.length, ']'.toNat :: r⟩ = _
    rw [parseArray, if_neg (by decide), if_pos rfl, if_neg (by decide)]
    simp [Items.values]
  | .cons before v after' rest, arr, after, r, n, p, ⟨hb, hv, ha', hi⟩, ha, hn => by
    have hrec := accepts v hv (stops_space ha' (stops_items rest r))
    simp only [Items.render, List.cons_append, List.append_assoc, List.length_append, List.length_cons] at hn ⊢
    obtain ⟨m, rfl⟩ : ∃ m, n = after.length + (m + 1) := ⟨n - after.length - 1, by omega⟩
    obtain ⟨q, k, hk, hq⟩ := parseArray_item arr (p + after.length + 1) hv hb some_false_ne hrec (n := m)
      (by simp only [List.length_append, List.length_cons]; omega)
    obtain ⟨q', hq'⟩ := accepts_items rest (arr ++ [v.value T]) (p := q) hi ha' hk
    refine ⟨q', ?_⟩
    rw [parseArray_space ha, parseArray, if_neg (by decide), if_neg (by decide), if_pos rfl, if_pos rfl, hq, hq']
    simp [Items.values]

theorem accepts_members : ∀ (rest : Members) (obj : List (Str × Dynamic F)) {after r : Str} {n p : Nat},
    rest.Allowed (taken T) → Space after →
    2 * (after ++ (rest.render ++ '\x7d'.toNat :: r)).length + 2 ≤ n →
    ∃ q, parseObject T n obj none (some true) ⟨p, after ++ (rest.render ++ '\x7d'.toNat :: r)⟩ =
      .ok (.obj (rest.fields T obj), ⟨q, r⟩)
  | .nil, obj, after, r, n, p, hi, ha, hn => by
    rw [List.length_append] at hn
    obtain ⟨m, rfl⟩ : ∃ m, n = after.length + (m + 1) := ⟨n - after.length - 1, by omega⟩
    refine ⟨p + after.length + 1, ?_⟩
    rw [parseObject_space ha]
    show parseObject T (m + 1) obj none (some true) ⟨p + after.length, '\x7d'.toNat :: r⟩ = _
    rw [parseObject, if_neg (by decide), if_pos rfl, if_neg (by decide)]
    rfl
  | .cons before key colon before' v after' rest, obj, after, r, n, p, ⟨hb, hk, hc, hb', hv, ha', hm⟩, ha, hn => by
    have hrec := accepts v hv (stops_space ha' (stops_members rest r))
    simp only [Members.render, List.cons_append, List.append_assoc, List.length_append, List.length_cons] at hn ⊢
    obtain ⟨m, rfl⟩ : ∃ m, n = after.length + (m + 1) := ⟨n - after.length - 1, by omega⟩
    obtain ⟨q, k, hk', hq⟩ := parseObject_member obj (p + after.length + 1) hk hb hc hb' some_false_ne hrec
      (n := m) (by simp only [List.length_append, List.length_cons]; omega)
    obtain ⟨q', hq'⟩ := accepts_members rest _ (p := q) hm ha' hk'
    refine ⟨q', ?_⟩
    rw [parseObject_space ha, parseObject, if_neg (by decide), if_neg (by decide), if_neg (by decide), if_pos rfl,
      if_pos rfl, hq, hq']
    rfl

end

end EvilHaxe.Json
