/-
The string loop: it reads a string piece by piece, and gives the string that the pieces denote where every surrogate
escape has its partner.
-/
import EvilHaxe.Json.Grammar
import Mathlib.Data.List.TakeWhile

namespace EvilHaxe.Json

variable {F : Type} {T : Target F}

namespace StringState

def read (T : Target F) (st : StringState) : Piece → StringState
  | .raw c => st.raw c
  | .escape c => st.escape T ((unescape c).getD 0)
  | .unicode a b c d => st.unicode T ((parseHex T [a, b, c, d]).getD 0)

def readAll (T : Target F) (st : StringState) (ps : List Piece) : StringState := ps.foldl (read T) st

@[simp] theorem readAll_nil (st : StringState) : st.readAll T [] = st := rfl

@[simp] theorem readAll_cons (st : StringState) (p : Piece) (ps : List Piece) :
    st.readAll T (p :: ps) = (st.read T p).readAll T ps := rfl

end StringState

/-! ## The loop -/

theorem stringLoop_quote (n p : Nat) (st : StringState) (s : Str) :
    stringLoop T (n + 1) st ⟨p, '"'.toNat :: s⟩ = .ok (st.result T, ⟨p + 1, s⟩) := by
  unfold stringLoop
  exact if_pos rfl

theorem stringLoop_raw {c : Nat} (hc : TakenPiece T (.raw c)) (n p : Nat) (st : StringState) (s : Str) :
    stringLoop T (n + 1) st ⟨p, c :: s⟩ = stringLoop T n (st.raw c) ⟨p + 1, s⟩ := by
  rw [stringLoop.eq_def]
  exact (if_neg hc.1).trans (if_neg hc.2)

theorem stringLoop_escape {c : Nat} (hc : c ≠ 'u'.toNat) (n p : Nat) (st : StringState) (s : Str) :
    stringLoop T (n + 1) st ⟨p, '\\'.toNat :: c :: s⟩ =
      match StringState.unescape c with
      | none => .error (.invalidEscape (some c) (p + 1))
      | some e => stringLoop T n (st.escape T e) ⟨p + 2, s⟩ := by
  rw [stringLoop, if_neg (by decide), if_pos rfl]
  simp only [if_neg hc] <;> rfl

theorem stringLoop_unicode (n p : Nat) (st : StringState) (s : Str) :
    stringLoop T (n + 1) st ⟨p, '\\'.toNat :: 'u'.toNat :: s⟩ =
      match parseHex T (s.take 4) with
      | none => .error .parseInt
      | some uc => stringLoop T n (st.unicode T uc) ⟨p + 6, s.drop 4⟩ := by
  rw [stringLoop, if_neg (by decide), if_pos rfl]
  simp only [if_true] <;> rfl

/-- One round of the loop reads one piece. -/
theorem stringLoop_piece {piece : Piece} (h : TakenPiece T piece) (n p : Nat) (st : StringState) (s : Str) :
    stringLoop T (n + 1) st ⟨p, piece.render ++ s⟩ =
      stringLoop T n (st.read T piece) ⟨p + piece.render.length, s⟩ := by
  cases piece with
  | raw c => exact stringLoop_raw h n p st s
  | escape c =>
    obtain ⟨hu, he⟩ := h
    obtain ⟨e, he⟩ := Option.isSome_iff_exists.mp he
    have := stringLoop_escape (T := T) hu n p st s
    rw [he] at this
    simpa [Piece.render, StringState.read, he] using this
  | unicode a b c d =>
    obtain ⟨uc, hu⟩ := Option.isSome_iff_exists.mp h
    have := stringLoop_unicode (T := T) n p st (a :: b :: c :: d :: s)
    simp only [List.take_succ_cons, List.take_zero, List.drop_succ_cons, List.drop_zero, hu] at this
    simpa [Piece.render, StringState.read, hu] using this

theorem stringLoop_taken {ps : List Piece} (h : (taken T).string ps) {n p : Nat} {st : StringState} {r : Str}
    (hn : (renderPieces ps).length < n) :
    stringLoop T n st ⟨p, renderPieces ps ++ '"'.toNat :: r⟩ =
      .ok ((st.readAll T ps).result T, ⟨p + (renderPieces ps).length + 1, r⟩) := by
  induction ps generalizing n p st with
  | nil =>
    obtain ⟨n, rfl⟩ : ∃ m, n = m + 1 := ⟨n - 1, by simp [renderPieces] at hn; omega⟩
    exact stringLoop_quote n p st r
  | cons piece ps ih =>
    simp only [renderPieces, List.length_append] at hn ⊢
    have hpos : 0 < piece.render.length := by cases piece <;> simp [Piece.render]
    obtain ⟨n, rfl⟩ : ∃ m, n = m + 1 := ⟨n - 1, by omega⟩
    rw [List.append_assoc, stringLoop_piece (h piece (by simp)), ih (fun x hx => h x (by simp [hx])) (by omega)]
    simp only [StringState.readAll_cons, Except.ok.injEq, Prod.mk.injEq, Input.mk.injEq, true_and, and_true]
    omega

theorem stringLoop_ok {n : Nat} {st : StringState} {i j : Input} {v : Str}
    (h : stringLoop T n st i = .ok (v, j)) :
    ∃ ps, (taken T).string ps ∧ i.rest = renderPieces ps ++ '"'.toNat :: j.rest ∧ v = (st.readAll T ps).result T := by
  induction n generalizing st i with
  | zero => cases h
  | succ n ih =>
    obtain ⟨p, s⟩ := i
    have grow : ∀ (piece : Piece) {rest : Str} {pos : Nat}, TakenPiece T piece → s = piece.render ++ rest →
        stringLoop T n (st.read T piece) ⟨pos, rest⟩ = .ok (v, j) →
        ∃ ps, (taken T).string ps ∧ s = renderPieces ps ++ '"'.toNat :: j.rest ∧ v = (st.readAll T ps).result T := by
      intro piece rest pos hp hs h
      obtain ⟨ps, hps, hrest, hv⟩ := ih h
      refine ⟨piece :: ps, ?_, ?_, hv⟩
      · intro x hx
        rcases List.mem_cons.mp hx with rfl | hx
        · exact hp
        · exact hps x hx
      · rw [hs, show rest = _ from hrest, renderPieces, List.append_assoc]
    cases s with
    | nil => cases h
    | cons c s =>
      by_cases hq : c = '"'.toNat
      · subst hq
        rw [stringLoop_quote] at h
        cases h
        exact ⟨[], by simp [Tokens.string], rfl, rfl⟩
      by_cases hb : c = '\\'.toNat
      · subst hb
        cases s with
        | nil => cases h
        | cons c s =>
          by_cases hu : c = 'u'.toNat
          · subst hu
            rw [stringLoop_unicode] at h
            cases hx : parseHex T (s.take 4) with
            | none => rw [hx] at h; cases h
            | some uc =>
              rw [hx] at h
              match s, hx, h with
              | a :: b :: c :: d :: s, hx, h =>
                have hx' : parseHex T [a, b, c, d] = some uc := hx
                apply grow (.unicode a b c d) (by simp [TakenPiece, hx']) rfl
                simpa [StringState.read, hx'] using h
              | [], _, h | [_], _, h | [_, _], _, h | [_, _, _], _, h => cases n <;> cases h
          · rw [stringLoop_escape hu] at h
            cases he : StringState.unescape c with
            | none => rw [he] at h; cases h
            | some e =>
              rw [he] at h
              apply grow (.escape c) ⟨hu, by simp [he]⟩ rfl
              simpa [StringState.read, he] using h
      · have hc : TakenPiece T (.raw c) := ⟨hq, hb⟩
        rw [stringLoop_raw hc] at h
        exact grow (.raw c) hc rfl h

theorem stringLoop_ne_outOfFuel {n : Nat} {st : StringState} {i : Input} (hn : i.rest.length < n) :
    stringLoop T n st i ≠ .error .outOfFuel := by
  induction n generalizing st i with
  | zero => omega
  | succ n ih =>
    obtain ⟨p, s⟩ := i
    cases s with
    | nil => simp [stringLoop]
    | cons c s =>
      simp only [List.length_cons] at hn
      unfold stringLoop
      split
      · simp
      split
      · cases s with
        | nil => simp
        | cons c s =>
          simp only [List.length_cons] at hn
          simp only
          split
          · split
            · simp
            · exact ih (by simp only [List.length_drop]; omega)
          · split
            · simp
            · exact ih (by simp only; omega)
      · exact ih (by simp only; omega)

/-! ## What a string denotes -/

theorem unescape_eq (c : Nat) : StringState.unescape c = rfcEscapes.lookup c := by
  by_cases h : c = 34 ∨ c = 92 ∨ c = 47 ∨ c = 98 ∨ c = 102 ∨ c = 110 ∨ c = 114 ∨ c = 116
  · rcases h with rfl | rfl | rfl | rfl | rfl | rfl | rfl | rfl <;> rfl
  · push Not at h
    simp only [← beq_eq_false_iff_ne] at h
    have hl : rfcEscapes.lookup c = none := by simp [rfcEscapes, List.lookup_cons, h]
    simp only [beq_eq_false_iff_ne] at h
    rw [hl]
    simp [StringState.unescape, h]

theorem parseHex_hex {ds : Str} (h : ∀ d ∈ ds, isHex d = true) (hne : ds ≠ []) :
    parseHex T ds = some (hexValue ds) := by
  unfold parseHex
  rw [List.takeWhile_eq_self_iff.mpr h]
  cases ds with
  | nil => exact absurd rfl hne
  | cons d ds => rfl

theorem hexDigit_lt {d : Nat} (h : isHex d = true) : hexDigit d < 16 := by
  simp only [isHex, Bool.or_eq_true, Bool.and_eq_true, decide_eq_true_eq] at h
  simp only [hexDigit]
  simp only [Char.reduceToNat] at h ⊢
  split_ifs <;> omega

theorem hexValue_lt {a b c d : Nat} (h : RfcPiece (.unicode a b c d)) : hexValue [a, b, c, d] < 0x10000 := by
  obtain ⟨ha, hb, hc, hd⟩ := h
  have := hexDigit_lt ha
  have := hexDigit_lt hb
  have := hexDigit_lt hc
  have := hexDigit_lt hd
  simp only [hexValue, List.foldl]
  omega

namespace StringState

/-- What has been read where no surrogate waits. -/
def content (st : StringState) : Str := st.buf.getD [] ++ st.chunk

theorem result_content {st : StringState} (h : st.prev = none) : st.result T = st.content := by
  have hc : st.cancelled T = st := by simp [cancelled, h]
  unfold result content
  rw [hc]
  cases st.buf <;> rfl

theorem content_raw (st : StringState) (c : Nat) : (st.raw c).content = st.content ++ [c] := by
  simp [content, raw]

theorem content_escape {st : StringState} (h : st.prev = none) (c : Nat) :
    (st.escape T c).content = st.content ++ [c] ∧ (st.escape T c).prev = none := by
  simp [content, escape, cancelled, addSub, add, h]

theorem content_unicode {st : StringState} (h : st.prev = none) {u : Nat} (hu : u < 0x10000)
    (hs : ¬ (0xD800 ≤ u ∧ u ≤ 0xDBFF)) :
    (st.unicode T u).content = st.content ++ [u] ∧ (st.unicode T u).prev = none := by
  have hs' : ¬ (u ≥ 0xD800 ∧ u ≤ 0xDBFF) := hs
  simp only [unicode, h, if_neg hs', T.addChar_bmp u hu]
  simp [content, addSub, add, h]

theorem content_pair {st : StringState} (h : st.prev = none) {u v : Nat} (hu : 0xD800 ≤ u ∧ u ≤ 0xDBFF)
    (hv : 0xDC00 ≤ v ∧ v ≤ 0xDFFF) :
    ((st.unicode T u).unicode T v).content =
        st.content ++ T.addChar (0x10000 + (u - 0xD800) * 0x400 + (v - 0xDC00)) ∧
      ((st.unicode T u).unicode T v).prev = none := by
  have e1 : st.unicode T u = { st.addSub with prev := some u } := by
    simp only [unicode, h]
    exact if_pos hu
  have hv' : ¬ (v < 0xDC00 ∨ v > 0xDFFF) := by omega
  have e2 : (u - 0xD800) * 1024 + (v - 0xDC00) + 0x10000 = 0x10000 + (u - 0xD800) * 0x400 + (v - 0xDC00) := by omega
  rw [e1]
  simp only [unicode, if_neg hv', e2]
  simp [content, addSub, add]

theorem read_unicode {st : StringState} {a b c d : Nat} (h : RfcPiece (.unicode a b c d)) :
    st.read T (.unicode a b c d) = st.unicode T (hexValue [a, b, c, d]) := by
  have hd : ∀ x ∈ [a, b, c, d], isHex x = true := by simpa [RfcPiece] using h
  simp only [read, parseHex_hex hd (by simp), Option.getD_some]

/-- A string of the grammar is read as what it denotes. -/
theorem readAll_meaning {ps : List Piece} (hps : rfc8259.string ps) {m : Str} (hm : meaning T ps = some m)
    {st : StringState} (hst : st.prev = none) : (st.readAll T ps).result T = st.content ++ m := by
  have tail : ∀ {p ps}, rfc8259.string (p :: ps) → rfc8259.string ps := fun h x hx => h x (by simp [hx])
  have head : ∀ {p ps}, rfc8259.string (p :: ps) → RfcPiece p := fun h => h _ (by simp)
  fun_induction meaning T ps generalizing st m with
  | case1 =>
    cases hm
    simp [result_content hst]
  | case2 c ps ih =>
    obtain ⟨m, hm', rfl⟩ := Option.map_eq_some_iff.mp hm
    have hraw : (st.read T (.raw c)).prev = none := hst
    rw [readAll_cons, ih (tail hps) hm' hraw]
    show (st.raw c).content ++ m = _
    simp [content_raw]
  | case3 c ps ih =>
    obtain ⟨e, he, hm⟩ := Option.bind_eq_some_iff.mp hm
    obtain ⟨m, hm', rfl⟩ := Option.map_eq_some_iff.mp hm
    have hread : st.read T (.escape c) = st.escape T e := by simp [read, unescape_eq, he]
    obtain ⟨h1, h2⟩ := content_escape (T := T) hst e
    rw [readAll_cons, hread, ih (tail hps) hm' h2, h1]
    simp
  | case4 a b c d u hu a' b' c' d' ps v hv =>
    rename_i ih
    obtain ⟨m, hm', rfl⟩ := Option.map_eq_some_iff.mp hm
    have hread : ((st.read T (.unicode a b c d)).read T (.unicode a' b' c' d')) = (st.unicode T u).unicode T v := by
      rw [read_unicode (head hps), read_unicode (head (tail hps))]
    obtain ⟨h1, h2⟩ := content_pair (T := T) hst hu hv
    rw [readAll_cons, readAll_cons, hread, ih (tail (tail hps)) hm' h2, h1]
    simp
  | case5 => cases hm
  | case6 => cases hm
  | case7 => cases hm
  | case8 a b c d ps u hu hv ih =>
    obtain ⟨m, hm', rfl⟩ := Option.map_eq_some_iff.mp hm
    have hread : st.read T (.unicode a b c d) = st.unicode T u := read_unicode (head hps)
    obtain ⟨h1, h2⟩ := content_unicode (T := T) hst (hexValue_lt (head hps)) hu
    rw [readAll_cons, hread, ih (tail hps) hm' h2, h1, List.append_assoc]
    rfl

end StringState

end EvilHaxe.Json
