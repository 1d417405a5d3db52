/-
No text has two trees, whichever of the tokens a grammar allows.
-/
import EvilHaxe.Json.Numbers
import EvilHaxe.Json.Strings

namespace EvilHaxe.Json

/-! ## Whitespace -/

/-- The text does not begin with whitespace. -/
def NoSpace (s : Str) : Prop := ∀ c ∈ s.head?, isSpace c = false

theorem noSpace_cons {c : Nat} {s : Str} (h : isSpace c = false) : NoSpace (c :: s) := by
  intro x hx
  cases hx
  exact h

theorem Space.cons {c : Nat} {ws : Str} (h : Space (c :: ws)) : isSpace c = true ∧ Space ws :=
  ⟨h c (by simp), fun x hx => h x (by simp [hx])⟩

theorem space_nil : Space [] := by simp [Space]

theorem space_unique {ws ws' s s' : Str} (hw : Space ws) (hw' : Space ws') (hs : NoSpace s) (hs' : NoSpace s')
    (h : ws ++ s = ws' ++ s') : ws = ws' ∧ s = s' := by
  induction ws generalizing ws' with
  | nil =>
    cases ws' with
    | nil => exact ⟨rfl, h⟩
    | cons c ws' =>
      have hc : isSpace c = false := hs c (by rw [show s = _ from h]; rfl)
      rw [hw'.cons.1] at hc
      cases hc
  | cons c ws ih =>
    cases ws' with
    | nil =>
      have hc : isSpace c = false := hs' c (by rw [← show _ = s' from h]; rfl)
      rw [hw.cons.1] at hc
      cases hc
    | cons c' ws' =>
      rw [List.cons_append, List.cons_append, List.cons.injEq] at h
      obtain ⟨rfl, h1⟩ := h
      obtain ⟨rfl, h2⟩ := ih hw.cons.2 hw'.cons.2 h1
      exact ⟨rfl, h2⟩

theorem isNumberChar_space {c : Nat} (h : isSpace c = true) : isNumberChar c = false := by
  simp only [isSpace, Bool.or_eq_true, beq_iff_eq] at h
  rcases h with ((rfl | rfl) | rfl) | rfl <;> rfl

theorem stops_cons {c : Nat} {s : Str} (h : isNumberChar c = false) : Stops (c :: s) := by
  intro x hx
  cases hx
  exact h

theorem stops_space {ws s : Str} (hw : Space ws) (hs : Stops s) : Stops (ws ++ s) := by
  cases ws with
  | nil => exact hs
  | cons c ws => exact stops_cons (isNumberChar_space hw.cons.1)

theorem stops_items (rest : Items) (s : Str) : Stops (rest.render ++ ']'.toNat :: s) := by
  cases rest with
  | nil => exact stops_cons (by decide)
  | cons => exact stops_cons (by decide)

theorem stops_members (rest : Members) (s : Str) : Stops (rest.render ++ '\x7d'.toNat :: s) := by
  cases rest with
  | nil => exact stops_cons (by decide)
  | cons => exact stops_cons (by decide)

theorem noSpace_items (rest : Items) (s : Str) : NoSpace (rest.render ++ ']'.toNat :: s) := by
  cases rest with
  | nil => exact noSpace_cons (by decide)
  | cons => exact noSpace_cons (by decide)

theorem noSpace_members (rest : Members) (s : Str) : NoSpace (rest.render ++ '\x7d'.toNat :: s) := by
  cases rest with
  | nil => exact noSpace_cons (by decide)
  | cons => exact noSpace_cons (by decide)

/-! ## Tokens -/

theorem piece_unique {p p' : Piece} {s s' : Str} (hp : AnyPiece p) (hp' : AnyPiece p')
    (h : p.render ++ s = p'.render ++ s') : p = p' ∧ s = s' := by
  cases p <;> cases p' <;> simp_all [Piece.render, AnyPiece]

theorem piece_ne_quote {p : Piece} {s s' : Str} (hp : AnyPiece p) (h : p.render ++ s = '"'.toNat :: s') : False := by
  cases p <;> simp_all [Piece.render, AnyPiece]

theorem pieces_unique {ps ps' : List Piece} {r r' : Str} (hp : anyTokens.string ps) (hp' : anyTokens.string ps')
    (h : renderPieces ps ++ '"'.toNat :: r = renderPieces ps' ++ '"'.toNat :: r') : ps = ps' ∧ r = r' := by
  induction ps generalizing ps' with
  | nil =>
    cases ps' with
    | nil => exact ⟨rfl, List.tail_eq_of_cons_eq h⟩
    | cons p ps' =>
      rw [renderPieces_cons, List.append_assoc] at h
      exact (piece_ne_quote (hp' p (by simp)) h.symm).elim
  | cons p ps ih =>
    cases ps' with
    | nil =>
      rw [renderPieces_cons, List.append_assoc] at h
      exact (piece_ne_quote (hp p (by simp)) h).elim
    | cons p' ps' =>
      rw [renderPieces_cons, renderPieces_cons, List.append_assoc, List.append_assoc] at h
      obtain ⟨rfl, h1⟩ := piece_unique (hp p (by simp)) (hp' p' (by simp)) h
      obtain ⟨rfl, h2⟩ := ih (fun x hx => hp x (by simp [hx])) (fun x hx => hp' x (by simp [hx])) h1
      exact ⟨rfl, h2⟩

theorem string_unique {ps ps' : List Piece} {r r' : Str} (hp : anyTokens.string ps) (hp' : anyTokens.string ps')
    (h : renderString ps ++ r = renderString ps' ++ r') : ps = ps' ∧ r = r' := by
  simp only [renderString, List.cons_append, List.cons.injEq, true_and, List.append_assoc] at h
  exact pieces_unique hp hp' h

theorem AnyNumber.chars {t : Str} (h : AnyNumber t) : ∀ c ∈ t, isNumberChar c = true := by
  obtain ⟨c, s, rfl, hc, hs⟩ := h
  intro d hd
  rcases List.mem_cons.mp hd with rfl | hd
  · rcases hc with hc | rfl
    · exact isNumberChar_digit hc
    · rfl
  · exact hs d hd

theorem takeWhile_number {t r : Str} (h : AnyNumber t) (hr : Stops r) : (t ++ r).takeWhile isNumberChar = t := by
  rw [List.takeWhile_append_of_pos h.chars]
  cases r with
  | nil => simp
  | cons c r => simp [hr c rfl]

theorem number_unique {t t' r r' : Str} (h : AnyNumber t) (h' : AnyNumber t') (hr : Stops r) (hr' : Stops r')
    (e : t ++ r = t' ++ r') : t = t' ∧ r = r' := by
  have ht : t = t' := by rw [← takeWhile_number h hr, e, takeWhile_number h' hr']
  subst ht
  exact ⟨rfl, List.append_cancel_left e⟩

/-! ## Values -/

/-- The character that a value begins with. -/
def Cst.first : Cst → Nat
  | .null => 'n'.toNat
  | .bool true => 't'.toNat
  | .bool false => 'f'.toNat
  | .str _ => '"'.toNat
  | .num text => text.headD 0
  | .emptyArr _ | .arr _ _ _ _ => '['.toNat
  | .emptyObj _ | .obj _ _ _ _ _ _ _ => '\x7b'.toNat

theorem first_num {text : Str} (h : AnyNumber text) : isDigit (Cst.num text).first = true ∨
    (Cst.num text).first = '-'.toNat := by
  obtain ⟨c, s, rfl, hc, -⟩ := h
  exact hc

theorem not_digit_literal {c : Nat} (h : isDigit c = true ∨ c = '-'.toNat) :
    c ≠ 'n'.toNat ∧ c ≠ 't'.toNat ∧ c ≠ 'f'.toNat ∧ c ≠ '"'.toNat ∧ c ≠ '['.toNat ∧ c ≠ '\x7b'.toNat ∧ c ≠ ']'.toNat ∧
      c ≠ '\x7d'.toNat ∧ c ≠ ','.toNat ∧ isSpace c = false := by
  rcases h with h | rfl
  · simp only [isDigit, Bool.and_eq_true, decide_eq_true_eq, Char.reduceToNat] at h
    simp only [isSpace, Bool.or_eq_false_iff, beq_eq_false_iff_ne, Char.reduceToNat]
    omega
  · decide

/-- A value begins with no whitespace, and with nothing that closes or goes on. -/
theorem first_open {t : Cst} (h : t.Allowed anyTokens) :
    isSpace t.first = false ∧ t.first ≠ ']'.toNat ∧ t.first ≠ ','.toNat := by
  match t, h with
  | .null, _ => decide
  | .bool true, _ => decide
  | .bool false, _ => decide
  | .str _, _ => simp [Cst.first, isSpace]
  | .num _, h =>
    have := not_digit_literal (first_num h)
    tauto
  | .emptyArr _, _ => simp [Cst.first, isSpace]
  | .arr _ _ _ _, _ => simp [Cst.first, isSpace]
  | .emptyObj _, _ => simp [Cst.first, isSpace]
  | .obj _ _ _ _ _ _ _, _ => simp [Cst.first, isSpace]

theorem render_first {t : Cst} (h : t.Allowed anyTokens) : ∃ s, t.render = t.first :: s := by
  match t, h with
  | .null, _ => exact ⟨_, rfl⟩
  | .bool true, _ => exact ⟨_, rfl⟩
  | .bool false, _ => exact ⟨_, rfl⟩
  | .str _, _ => exact ⟨_, rfl⟩
  | .num _, h =>
    obtain ⟨c, s, rfl, -⟩ := h
    exact ⟨s, rfl⟩
  | .emptyArr _, _ => exact ⟨_, rfl⟩
  | .arr _ _ _ _, _ => exact ⟨_, rfl⟩
  | .emptyObj _, _ => exact ⟨_, rfl⟩
  | .obj _ _ _ _ _ _ _, _ => exact ⟨_, rfl⟩

theorem noSpace_render {t : Cst} (h : t.Allowed anyTokens) (s : Str) : NoSpace (t.render ++ s) := by
  obtain ⟨s', hs⟩ := render_first h
  rw [hs]
  exact noSpace_cons (first_open h).1

theorem first_eq {t t' : Cst} (h : t.Allowed anyTokens) (h' : t'.Allowed anyTokens) {r r' : Str}
    (e : t.render ++ r = t'.render ++ r') : t.first = t'.first := by
  obtain ⟨s, hs⟩ := render_first h
  obtain ⟨s', hs'⟩ := render_first h'
  rw [hs, hs'] at e
  exact (List.cons.inj e).1

/-- An array that is empty after some whitespace has no value there. -/
theorem close_ne_render {t : Cst} (h : t.Allowed anyTokens) {ws ws' s s' : Str} (hw : Space ws) (hw' : Space ws')
    (e : ws ++ ']'.toNat :: s = ws' ++ (t.render ++ s')) : False := by
  obtain ⟨-, e⟩ := space_unique hw hw' (noSpace_cons (by decide)) (noSpace_render h s') e
  obtain ⟨s1, hs⟩ := render_first h
  rw [hs] at e
  exact (first_open h).2.1 (List.cons.inj e).1.symm

theorem close_ne_string {ps : List Piece} {ws ws' s s' : Str} (hw : Space ws) (hw' : Space ws')
    (e : ws ++ '\x7d'.toNat :: s = ws' ++ (renderString ps ++ s')) : False := by
  obtain ⟨-, e⟩ := space_unique hw hw' (noSpace_cons (by decide)) (noSpace_cons (by decide)) e
  cases (List.cons.inj e).1

theorem key_unique {before before' colon colon' s s' : Str} {key key' : List Piece} (hb : Space before)
    (hb' : Space before') (hk : anyTokens.string key) (hk' : anyTokens.string key') (hc : Space colon)
    (hc' : Space colon')
    (e : before ++ (renderString key ++ (colon ++ ':'.toNat :: s)) =
      before' ++ (renderString key' ++ (colon' ++ ':'.toNat :: s'))) :
    before = before' ∧ key = key' ∧ colon = colon' ∧ s = s' := by
  obtain ⟨rfl, e1⟩ := space_unique hb hb' (noSpace_cons (by decide)) (noSpace_cons (by decide)) e
  obtain ⟨rfl, e2⟩ := string_unique hk hk' e1
  obtain ⟨rfl, e3⟩ := space_unique hc hc' (noSpace_cons (by decide)) (noSpace_cons (by decide)) e2
  exact ⟨rfl, rfl, rfl, List.tail_eq_of_cons_eq e3⟩

mutual

theorem render_unique : ∀ (t t' : Cst) {r r' : Str}, t.Allowed anyTokens → t'.Allowed anyTokens → Stops r → Stops r' →
    t.render ++ r = t'.render ++ r' → t = t' ∧ r = r'
  | .null, t', r, r', h, h', hr, hr', e => by
    have hf := first_eq h h' e
    match t', h', e, hf with
    | .null, _, e, _ => exact ⟨rfl, List.append_cancel_left e⟩
    | .num _, h', _, hf => exact absurd hf.symm (not_digit_literal (first_num h')).1
    | .bool true, _, _, hf | .bool false, _, _, hf | .str _, _, _, hf | .emptyArr _, _, _, hf
    | .arr _ _ _ _, _, _, hf | .emptyObj _, _, _, hf | .obj _ _ _ _ _ _ _, _, _, hf => cases hf
  | .bool true, t', r, r', h, h', hr, hr', e => by
    have hf := first_eq h h' e
    match t', h', e, hf with
    | .bool true, _, e, _ => exact ⟨rfl, List.append_cancel_left e⟩
    | .num _, h', _, hf => exact absurd hf.symm (not_digit_literal (first_num h')).2.1
    | .null, _, _, hf | .bool false, _, _, hf | .str _, _, _, hf | .emptyArr _, _, _, hf
    | .arr _ _ _ _, _, _, hf | .emptyObj _, _, _, hf | .obj _ _ _ _ _ _ _, _, _, hf => cases hf
  | .bool false, t', r, r', h, h', hr, hr', e => by
    have hf := first_eq h h' e
    match t', h', e, hf with
    | .bool false, _, e, _ => exact ⟨rfl, List.append_cancel_left e⟩
    | .num _, h', _, hf => exact absurd hf.symm (not_digit_literal (first_num h')).2.2.1
    | .null, _, _, hf | .bool true, _, _, hf | .str _, _, _, hf | .emptyArr _, _, _, hf
    | .arr _ _ _ _, _, _, hf | .emptyObj _, _, _, hf | .obj _ _ _ _ _ _ _, _, _, hf => cases hf
  | .str ps, t', r, r', h, h', hr, hr', e => by
    have hf := first_eq h h' e
    match t', h', e, hf with
    | .str ps', h', e, _ =>
      obtain ⟨rfl, e1⟩ := string_unique h h' e
      exact ⟨rfl, e1⟩
    | .num _, h', _, hf => exact absurd hf.symm (not_digit_literal (first_num h')).2.2.2.1
    | .null, _, _, hf | .bool true, _, _, hf | .bool false, _, _, hf | .emptyArr _, _, _, hf
    | .arr _ _ _ _, _, _, hf | .emptyObj _, _, _, hf | .obj _ _ _ _ _ _ _, _, _, hf => cases hf
  | .num text, t', r, r', h, h', hr, hr', e => by
    have hf := first_eq h h' e
    have hd := not_digit_literal (first_num h)
    match t', h', e, hf with
    | .num text', h', e, _ =>
      obtain ⟨rfl, e1⟩ := number_unique h h' hr hr' e
      exact ⟨rfl, e1⟩
    | .null, _, _, hf => exact absurd hf hd.1
    | .bool true, _, _, hf => exact absurd hf hd.2.1
    | .bool false, _, _, hf => exact absurd hf hd.2.2.1
    | .str _, _, _, hf => exact absurd hf hd.2.2.2.1
    | .emptyArr _, _, _, hf | .arr _ _ _ _, _, _, hf => exact absurd hf hd.2.2.2.2.1
    | .emptyObj _, _, _, hf | .obj _ _ _ _ _ _ _, _, _, hf => exact absurd hf hd.2.2.2.2.2.1
  | .emptyArr ws, t', r, r', h, h', hr, hr', e => by
    have hf := first_eq h h' e
    match t', h', e, hf with
    | .emptyArr ws', h', e, _ =>
      simp only [Cst.render, List.cons_append, List.cons.injEq, true_and, List.append_assoc] at e
      obtain ⟨rfl, e1⟩ := space_unique h h' (noSpace_cons (by decide)) (noSpace_cons (by decide)) e
      exact ⟨rfl, List.tail_eq_of_cons_eq e1⟩
    | .arr before v after rest, h', e, _ =>
      simp only [Cst.render, List.cons_append, List.cons.injEq, true_and, List.append_assoc] at e
      exact (close_ne_render h'.2.1 h h'.1 e).elim
    | .num _, h', _, hf => exact absurd hf.symm (not_digit_literal (first_num h')).2.2.2.2.1
    | .null, _, _, hf | .bool true, _, _, hf | .bool false, _, _, hf | .str _, _, _, hf
    | .emptyObj _, _, _, hf | .obj _ _ _ _ _ _ _, _, _, hf => cases hf
  | .arr before v after rest, t', r, r', h, h', hr, hr', e => by
    have hf := first_eq h h' e
    match t', h', e, hf with
    | .emptyArr ws', h', e, _ =>
      simp only [Cst.render, List.cons_append, List.cons.injEq, true_and, List.append_assoc] at e
      exact (close_ne_render h.2.1 h' h.1 e.symm).elim
    | .arr before' v' after' rest', h', e, _ =>
      obtain ⟨hb, hv, ha, hi⟩ := h
      obtain ⟨hb', hv', ha', hi'⟩ := h'
      simp only [Cst.render, List.cons_append, List.cons.injEq, true_and, List.append_assoc] at e
      obtain ⟨rfl, e1⟩ := space_unique hb hb' (noSpace_render hv _) (noSpace_render hv' _) e
      obtain ⟨rfl, e2⟩ := render_unique v v' hv hv' (stops_space ha (stops_items rest r))
        (stops_space ha' (stops_items rest' r')) e1
      obtain ⟨rfl, e3⟩ := space_unique ha ha' (noSpace_items rest r) (noSpace_items rest' r') e2
      obtain ⟨rfl, e4⟩ := items_unique rest rest' hi hi' e3
      exact ⟨rfl, e4⟩
    | .num _, h', _, hf => exact absurd hf.symm (not_digit_literal (first_num h')).2.2.2.2.1
    | .null, _, _, hf | .bool true, _, _, hf | .bool false, _, _, hf | .str _, _, _, hf
    | .emptyObj _, _, _, hf | .obj _ _ _ _ _ _ _, _, _, hf => cases hf
  | .emptyObj ws, t', r, r', h, h', hr, hr', e => by
    have hf := first_eq h h' e
    match t', h', e, hf with
    | .emptyObj ws', h', e, _ =>
      simp only [Cst.render, List.cons_append, List.cons.injEq, true_and, List.append_assoc] at e
      obtain ⟨rfl, e1⟩ := space_unique h h' (noSpace_cons (by decide)) (noSpace_cons (by decide)) e
      exact ⟨rfl, List.tail_eq_of_cons_eq e1⟩
    | .obj before key colon before' v after rest, h', e, _ =>
      simp only [Cst.render, List.cons_append, List.cons.injEq, true_and, List.append_assoc] at e
      exact (close_ne_string h h'.1 e).elim
    | .num _, h', _, hf => exact absurd hf.symm (not_digit_literal (first_num h')).2.2.2.2.2.1
    | .null, _, _, hf | .bool true, _, _, hf | .bool false, _, _, hf | .str _, _, _, hf
    | .emptyArr _, _, _, hf | .arr _ _ _ _, _, _, hf => cases hf
  | .obj before key colon before' v after rest, t', r, r', h, h', hr, hr', e => by
    have hf := first_eq h h' e
    match t', h', e, hf with
    | .emptyObj ws', h', e, _ =>
      simp only [Cst.render, List.cons_append, List.cons.injEq, true_and, List.append_assoc] at e
      exact (close_ne_string h' h.1 e.symm).elim
    | .obj before₁ key₁ colon₁ before₁' v₁ after₁ rest₁, h', e, _ =>
      obtain ⟨hb, hk, hc, hb', hv, ha, hm⟩ := h
      obtain ⟨hb₁, hk₁, hc₁, hb₁', hv₁, ha₁, hm₁⟩ := h'
      simp only [Cst.render, List.cons_append, List.cons.injEq, true_and, List.append_assoc] at e
      obtain ⟨rfl, rfl, rfl, e1⟩ := key_unique hb hb₁ hk hk₁ hc hc₁ e
      obtain ⟨rfl, e2⟩ := space_unique hb' hb₁' (noSpace_render hv _) (noSpace_render hv₁ _) e1
      obtain ⟨rfl, e3⟩ := render_unique v v₁ hv hv₁ (stops_space ha (stops_members rest r))
        (stops_space ha₁ (stops_members rest₁ r')) e2
      obtain ⟨rfl, e4⟩ := space_unique ha ha₁ (noSpace_members rest r) (noSpace_members rest₁ r') e3
      obtain ⟨rfl, e5⟩ := members_unique rest rest₁ hm hm₁ e4
      exact ⟨rfl, e5⟩
    | .num _, h', _, hf => exact absurd hf.symm (not_digit_literal (first_num h')).2.2.2.2.2.1
    | .null, _, _, hf | .bool true, _, _, hf | .bool false, _, _, hf | .str _, _, _, hf
    | .emptyArr _, _, _, hf | .arr _ _ _ _, _, _, hf => cases hf

theorem items_unique : ∀ (rest rest' : Items) {r r' : Str}, rest.Allowed anyTokens → rest'.Allowed anyTokens →
    rest.render ++ ']'.toNat :: r = rest'.render ++ ']'.toNat :: r' → rest = rest' ∧ r = r'
  | .nil, .nil, r, r', _, _, e => ⟨rfl, List.tail_eq_of_cons_eq e⟩
  | .nil, .cons _ _ _ _, r, r', _, _, e => by cases e
  | .cons _ _ _ _, .nil, r, r', _, _, e => by cases e
  | .cons before v after rest, .cons before' v' after' rest', r, r', h, h', e => by
    obtain ⟨hb, hv, ha, hi⟩ := h
    obtain ⟨hb', hv', ha', hi'⟩ := h'
    simp only [Items.render, List.cons_append, List.cons.injEq, true_and, List.append_assoc] at e
    obtain ⟨rfl, e1⟩ := space_unique hb hb' (noSpace_render hv _) (noSpace_render hv' _) e
    obtain ⟨rfl, e2⟩ := render_unique v v' hv hv' (stops_space ha (stops_items rest r))
      (stops_space ha' (stops_items rest' r')) e1
    obtain ⟨rfl, e3⟩ := space_unique ha ha' (noSpace_items rest r) (noSpace_items rest' r') e2
    obtain ⟨rfl, e4⟩ := items_unique rest rest' hi hi' e3
    exact ⟨rfl, e4⟩

theorem members_unique : ∀ (rest rest₁ : Members) {r r' : Str}, rest.Allowed anyTokens → rest₁.Allowed anyTokens →
    rest.render ++ '\x7d'.toNat :: r = rest₁.render ++ '\x7d'.toNat :: r' → rest = rest₁ ∧ r = r'
  | .nil, .nil, r, r', _, _, e => ⟨rfl, List.tail_eq_of_cons_eq e⟩
  | .nil, .cons _ _ _ _ _ _ _, r, r', _, _, e => by cases e
  | .cons _ _ _ _ _ _ _, .nil, r, r', _, _, e => by cases e
  | .cons before key colon before' v after rest, .cons before₁ key₁ colon₁ before₁' v₁ after₁ rest₁, r, r', h, h',
    e => by
    obtain ⟨hb, hk, hc, hb', hv, ha, hm⟩ := h
    obtain ⟨hb₁, hk₁, hc₁, hb₁', hv₁, ha₁, hm₁⟩ := h'
    simp only [Members.render, List.cons_append, List.cons.injEq, true_and, List.append_assoc] at e
    obtain ⟨rfl, rfl, rfl, e1⟩ := key_unique hb hb₁ hk hk₁ hc hc₁ e
    obtain ⟨rfl, e2⟩ := space_unique hb' hb₁' (noSpace_render hv _) (noSpace_render hv₁ _) e1
    obtain ⟨rfl, e3⟩ := render_unique v v₁ hv hv₁ (stops_space ha (stops_members rest r))
      (stops_space ha₁ (stops_members rest₁ r')) e2
    obtain ⟨rfl, e4⟩ := space_unique ha ha₁ (noSpace_members rest r) (noSpace_members rest₁ r') e3
    obtain ⟨rfl, e5⟩ := members_unique rest rest₁ hm hm₁ e4
    exact ⟨rfl, e5⟩

end

/-- A text has one tree. -/
theorem text_unique {s : Str} {t t' : Cst} (h : IsText anyTokens s t) (h' : IsText anyTokens s t') : t = t' := by
  obtain ⟨ht, before, after, hb, ha, rfl⟩ := h
  obtain ⟨ht', before', after', hb', ha', e⟩ := h'
  obtain ⟨-, e1⟩ := space_unique hb hb' (noSpace_render ht _) (noSpace_render ht' _) e
  have stops : ∀ ws, Space ws → Stops ws := by
    intro ws hw
    have := stops_space hw (s := []) (by simp [Stops])
    rwa [List.append_nil] at this
  exact (render_unique t t' ht ht' (stops after ha) (stops after' ha') e1).1

end EvilHaxe.Json
