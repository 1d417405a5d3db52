/-
Escaped surrogates in the strings that `haxe.format.JsonParser` reads. A high surrogate waits in `prev` for the next
escape, while the characters up to there wait in the chunk, and are appended before it.
-/
import EvilHaxe.Json.Conformance

namespace EvilHaxe.Json

variable {F : Type} {T : Target F}

/-- A piece of a string with the code that it stands for. -/
inductive Part where
  | raw (c : Nat)
  | escaped (c : Nat)
  | unicode (u : Nat)
  deriving DecidableEq

def Part.isRaw : Part → Bool
  | .raw _ => true
  | _ => false

def Piece.part : Piece → Part
  | .raw c => .raw c
  | .escape c => .escaped ((rfcEscapes.lookup c).getD 0)
  | .unicode a b c d => .unicode (hexValue [a, b, c, d])

def High (u : Nat) : Prop := 0xD800 ≤ u ∧ u ≤ 0xDBFF

def Low (u : Nat) : Prop := 0xDC00 ≤ u ∧ u ≤ 0xDFFF

instance (u : Nat) : Decidable (High u) := inferInstanceAs (Decidable (_ ∧ _))

instance (u : Nat) : Decidable (Low u) := inferInstanceAs (Decidable (_ ∧ _))

/-- The code point of a pair of surrogates. -/
def paired (u v : Nat) : Nat := (u - 0xD800) * 0x400 + (v - 0xDC00) + 0x10000

/-- What an escaped code stands for that is not part of a pair. -/
def alone (u : Nat) : Nat := if High u ∨ Low u then 0xFFFD else u

/-- The string that the parts stand for: a pair of escaped surrogates for its code point, every other escaped surrogate
for U+FFFD. -/
def decode (T : Target F) : List Part → Str
  | [] => []
  | .raw c :: ps => c :: decode T ps
  | .escaped c :: ps => c :: decode T ps
  | .unicode u :: .unicode v :: ps =>
    if High u ∧ Low v then T.addChar (paired u v) ++ decode T ps else alone u :: decode T (.unicode v :: ps)
  | .unicode u :: ps => alone u :: decode T ps

/-- Behind an escaped high surrogate: no escape follows, or one of one character, and only U+FFFD stands before it. -/
def FlushedInPlace (ps : List Part) : Prop :=
  match ps.dropWhile Part.isRaw with
  | [] => True
  | .escaped _ :: _ => ∀ p ∈ ps.takeWhile Part.isRaw, p = .raw 0xFFFD
  | _ => False

/-- Every escaped low surrogate stands right behind the high one that it is paired with, and behind every other high one
`FlushedInPlace` holds. -/
def SurrogatesInPlace : List Part → Prop
  | [] => True
  | .raw _ :: ps => SurrogatesInPlace ps
  | .escaped _ :: ps => SurrogatesInPlace ps
  | .unicode u :: .unicode v :: ps =>
    if High u then Low v ∧ SurrogatesInPlace ps else ¬Low u ∧ SurrogatesInPlace (.unicode v :: ps)
  | .unicode u :: ps => ¬Low u ∧ (High u → FlushedInPlace ps) ∧ SurrogatesInPlace ps

/-! ## What is read -/

/-- What `parseString` makes of the parts, with a high surrogate that waits and the characters behind it. -/
def parsedFrom (T : Target F) : Option (Nat × Str) → List Part → Str
  | none, [] => []
  | none, .raw c :: ps => c :: parsedFrom T none ps
  | none, .escaped c :: ps => c :: parsedFrom T none ps
  | none, .unicode u :: ps => if High u then parsedFrom T (some (u, [])) ps else u :: parsedFrom T none ps
  | some (_, w), [] => 0xFFFD :: w
  | some (u, w), .raw c :: ps => parsedFrom T (some (u, w ++ [c])) ps
  | some (_, w), .escaped c :: ps => w ++ 0xFFFD :: c :: parsedFrom T none ps
  | some (u, w), .unicode v :: ps =>
    if Low v then w ++ (T.addChar (paired u v) ++ parsedFrom T none ps) else w ++ 0xFFFD :: parsedFrom T none ps

namespace StringState

/-- What is read so far, and what waits. -/
def before (st : StringState) : Str := if st.prev.isSome then st.buf.getD [] else st.content

def waiting (st : StringState) : Option (Nat × Str) := st.prev.map (·, st.chunk)

theorem addChar_fffd : T.addChar 0xFFFD = [0xFFFD] := T.addChar_bmp _ (by decide)

theorem result_waiting (st : StringState) : st.result T = st.before ++ parsedFrom T st.waiting [] := by
  obtain ⟨buf, chunk, prev⟩ := st
  cases prev with
  | none =>
    rw [result_content rfl]
    exact (List.append_nil _).symm
  | some u =>
    simp [result, cancelled, cancelSurrogate, add, before, waiting, parsedFrom, addChar_fffd]

/-- One round of the loop on a part. -/
theorem read_part {st : StringState} {p : Piece} (hp : RfcPiece p) (ps : List Part) :
    (st.read T p).before ++ parsedFrom T (st.read T p).waiting ps =
      st.before ++ parsedFrom T st.waiting (p.part :: ps) := by
  obtain ⟨buf, chunk, prev⟩ := st
  cases p with
  | raw c =>
    cases prev with
    | none => simp [read, raw, before, waiting, content, parsedFrom, Piece.part]
    | some u => simp [read, raw, before, waiting, parsedFrom, Piece.part]
  | escape c =>
    obtain ⟨e, he⟩ := Option.isSome_iff_exists.1 hp
    have hread : StringState.unescape c = some e := by rw [unescape_eq, he]
    cases prev with
    | none => simp [read, hread, he, escape, addSub, add, cancelled, before, waiting, content, parsedFrom, Piece.part]
    | some u =>
      simp [read, hread, he, escape, addSub, add, cancelled, cancelSurrogate, before, waiting, content, parsedFrom,
        Piece.part, addChar_fffd]
  | unicode a b c d =>
    rw [read_unicode hp]
    have hbmp := T.addChar_bmp _ (hexValue_lt hp)
    simp only [Piece.part]
    generalize hexValue [a, b, c, d] = v at hbmp ⊢
    cases prev with
    | none =>
      by_cases hv : High v
      · have hv' : v ≥ 0xD800 ∧ v ≤ 0xDBFF := hv
        simp [unicode, hv', addSub, add, before, waiting, content, parsedFrom, hv]
      · have hv' : ¬(v ≥ 0xD800 ∧ v ≤ 0xDBFF) := hv
        simp [unicode, hv', addSub, add, before, waiting, content, parsedFrom, hv, hbmp]
    | some u =>
      by_cases hv : Low v
      · have hv' : ¬(v < 0xDC00 ∨ v > 0xDFFF) := by unfold Low at hv; omega
        simp [unicode, hv', addSub, add, before, waiting, content, parsedFrom, hv, paired]
      · have hv' : v < 0xDC00 ∨ v > 0xDFFF := by unfold Low at hv; omega
        simp [unicode, hv', addSub, add, cancelSurrogate, before, waiting, content, parsedFrom, hv, addChar_fffd]

theorem readAll_parts {ps : List Piece} (hps : rfc8259.string ps) (st : StringState) :
    (st.readAll T ps).result T = st.before ++ parsedFrom T st.waiting (ps.map Piece.part) := by
  induction ps generalizing st with
  | nil => exact result_waiting st
  | cons p ps ih =>
    rw [readAll_cons, ih (fun x hx => hps x (List.mem_cons_of_mem _ hx)), List.map_cons]
    exact read_part (hps p List.mem_cons_self) _

end StringState

/-! ## Characters that wait -/

/-- `StringBuf.addChar` appends a supplementary code point as one code, or as its pair of surrogates. -/
def Target.AddsSupplementary (T : Target F) : Prop :=
  ∀ c, 0x10000 ≤ c → c < 0x110000 →
    T.addChar c = [c] ∨ T.addChar c = [0xD800 + (c - 0x10000) / 0x400, 0xDC00 + (c - 0x10000) % 0x400]

theorem parsedFrom_raws (u : Nat) (w₀ w : Str) (rest : List Part) :
    parsedFrom T (some (u, w₀)) (w.map .raw ++ rest) = parsedFrom T (some (u, w₀ ++ w)) rest := by
  induction w generalizing w₀ with
  | nil => rw [List.append_nil]; rfl
  | cons c w ih =>
    rw [List.map_cons, List.cons_append, parsedFrom, ih, List.append_assoc]
    rfl

theorem decode_raws (w : Str) (rest : List Part) : decode T (w.map .raw ++ rest) = w ++ decode T rest := by
  induction w with
  | nil => rfl
  | cons c w ih => rw [List.map_cons, List.cons_append, decode, ih, List.cons_append]

theorem surrogatesInPlace_raws (w : Str) (rest : List Part) :
    SurrogatesInPlace (w.map .raw ++ rest) ↔ SurrogatesInPlace rest := by
  induction w with
  | nil => exact Iff.rfl
  | cons c w ih => exact ih

theorem dropWhile_raws (w : Str) (rest : List Part) :
    (w.map Part.raw ++ rest).dropWhile Part.isRaw = rest.dropWhile Part.isRaw := by
  induction w with
  | nil => rfl
  | cons c w ih => exact ih

theorem takeWhile_raws (w : Str) (rest : List Part) :
    (w.map Part.raw ++ rest).takeWhile Part.isRaw = w.map Part.raw ++ rest.takeWhile Part.isRaw := by
  induction w with
  | nil => rfl
  | cons c w ih => exact congrArg _ ih

/-- What follows is a run of characters, and then the end or an escape. -/
theorem exists_raws (ps : List Part) : ∃ (w : Str) (rest : List Part), ps = w.map .raw ++ rest ∧
    (rest = [] ∨ (∃ c r, rest = .escaped c :: r) ∨ ∃ v r, rest = .unicode v :: r) := by
  induction ps with
  | nil => exact ⟨[], [], rfl, Or.inl rfl⟩
  | cons p ps ih =>
    cases p with
    | raw c =>
      obtain ⟨w, rest, rfl, hrest⟩ := ih
      exact ⟨c :: w, rest, rfl, hrest⟩
    | escaped c => exact ⟨[], _, rfl, Or.inr (Or.inl ⟨c, ps, rfl⟩)⟩
    | unicode v => exact ⟨[], _, rfl, Or.inr (Or.inr ⟨v, ps, rfl⟩)⟩

/-- A run that may change places with a character consists of that character. -/
theorem append_singleton_eq_cons_iff {α : Type} {x : α} {w : List α} : w ++ [x] = x :: w ↔ ∀ y ∈ w, y = x := by
  induction w with
  | nil => exact iff_of_true rfl fun _ h => absurd h List.not_mem_nil
  | cons a w ih =>
    rw [List.cons_append, List.cons.injEq, List.forall_mem_cons]
    constructor
    · rintro ⟨rfl, h⟩
      exact ⟨rfl, ih.1 h⟩
    · rintro ⟨rfl, h⟩
      exact ⟨rfl, ih.2 h⟩

theorem addChar_paired (hT : T.AddsSupplementary) {u v : Nat} (hu : High u) (hv : Low v) :
    T.addChar (paired u v) = [paired u v] ∨ T.addChar (paired u v) = [u, v] := by
  unfold High at hu
  unfold Low at hv
  have hpaired : paired u v = (u - 0xD800) * 0x400 + (v - 0xDC00) + 0x10000 := rfl
  rcases hT (paired u v) (by omega) (by omega) with h | h
  · exact Or.inl h
  · refine Or.inr (h.trans ?_)
    rw [show 0xD800 + (paired u v - 0x10000) / 0x400 = u by omega,
      show 0xDC00 + (paired u v - 0x10000) % 0x400 = v by omega]

theorem decode_pair {u v : Nat} (hu : High u) (hv : Low v) (ps : List Part) :
    decode T (.unicode u :: .unicode v :: ps) = T.addChar (paired u v) ++ decode T ps := by
  rw [decode, if_pos ⟨hu, hv⟩]

/-- A surrogate escape that is not the first half of a pair. -/
theorem decode_alone {u : Nat} {ps : List Part} (h : ∀ v r, ps = .unicode v :: r → ¬(High u ∧ Low v)) :
    decode T (.unicode u :: ps) = alone u :: decode T ps := by
  cases ps with
  | nil => rfl
  | cons p ps =>
    cases p with
    | unicode v => rw [decode, if_neg (h v ps rfl)]
    | raw c => rfl
    | escaped c => rfl

theorem surrogatesInPlace_alone {u : Nat} {ps : List Part} (h : ∀ v r, ps = .unicode v :: r → ¬(High u ∧ Low v)) :
    SurrogatesInPlace (.unicode u :: ps) ↔ ¬Low u ∧ (High u → FlushedInPlace ps) ∧ SurrogatesInPlace ps := by
  cases ps with
  | nil => exact Iff.rfl
  | cons p ps =>
    cases p with
    | raw c => exact Iff.rfl
    | escaped c => exact Iff.rfl
    | unicode v =>
      have hv := h v ps rfl
      rw [SurrogatesInPlace]
      by_cases hu : High u
      · rw [if_pos hu]
        exact iff_of_false (fun hin => hv ⟨hu, hin.1⟩) fun hin => hin.2.1 hu
      · rw [if_neg hu]
        exact ⟨fun hin => ⟨hin.1, fun hu' => absurd hu' hu, hin.2⟩, fun hin => ⟨hin.1, hin.2.2⟩⟩

/-- An escape adds to the string. -/
theorem length_decode_unicode (hT : T.AddsSupplementary) (x : Nat) (ps : List Part) :
    (decode T ps).length ≤ (decode T (.unicode x :: ps)).length := by
  by_cases hpair : ∃ v r, ps = .unicode v :: r ∧ High x ∧ Low v
  · obtain ⟨v, r, rfl, hx, hv⟩ := hpair
    rw [decode_pair hx hv, decode_alone fun w _ _ h => by have := h.1; unfold High at this; unfold Low at hv; omega]
    rcases addChar_paired hT hx hv with h | h <;> rw [h] <;> simp
  · rw [decode_alone fun v r h hxv => hpair ⟨v, r, h, hxv⟩]
    simp

theorem not_high_of_low {u : Nat} (h : Low u) : ¬High u := by
  unfold High
  unfold Low at h
  omega

/-- What is read behind an escape that is dropped is not what is meant with it. -/
theorem parsedFrom_ne_decode_unicode (hT : T.AddsSupplementary) {v : Nat} {r : List Part}
    (hle : (parsedFrom T none r).length ≤ (decode T r).length) : parsedFrom T none r ≠ decode T (.unicode v :: r) := by
  intro h
  by_cases hpair : ∃ y r', r = .unicode y :: r' ∧ High v ∧ Low y
  · obtain ⟨y, r', rfl, hv, hy⟩ := hpair
    rw [decode_pair hv hy, parsedFrom, if_neg (not_high_of_low hy)] at h
    unfold High at hv
    unfold Low at hy
    have hhead : y = paired v y ∨ y = v := by
      rcases addChar_paired hT hv hy with hS | hS <;> rw [hS] at h <;> simp only [List.cons_append,
        List.cons.injEq] at h
      · exact Or.inl h.1
      · exact Or.inr h.1
    unfold paired at hhead
    omega
  · rw [decode_alone fun y r' hr hvy => hpair ⟨y, r', hr, hvy⟩] at h
    have hlen := congrArg List.length h
    rw [List.length_cons] at hlen
    omega

/-- Behind a high surrogate that waits: what is read is no longer than what is meant,
  and it is what is meant exactly if it
is flushed in place. -/
theorem parsedFrom_waiting (hT : T.AddsSupplementary) {u : Nat} (hu : High u) {ps : List Part}
    (halone : ∀ v r, ps = .unicode v :: r → ¬Low v)
    (ih : ∀ qs : List Part, qs.length < ps.length → (parsedFrom T none qs).length ≤ (decode T qs).length ∧
      (parsedFrom T none qs = decode T qs ↔ SurrogatesInPlace qs)) :
    (parsedFrom T (some (u, [])) ps).length ≤ (0xFFFD :: decode T ps).length ∧
      (parsedFrom T (some (u, [])) ps = 0xFFFD :: decode T ps ↔ FlushedInPlace ps ∧ SurrogatesInPlace ps) := by
  obtain ⟨w, rest, rfl, hrest⟩ := exists_raws ps
  rw [parsedFrom_raws, List.nil_append, decode_raws, surrogatesInPlace_raws, FlushedInPlace, dropWhile_raws,
    takeWhile_raws]
  have hlength : w.length + rest.length = (w.map Part.raw ++ rest).length := by
    rw [List.length_append, List.length_map]
  rcases hrest with rfl | ⟨c, r, rfl⟩ | ⟨v, r, rfl⟩
  · exact ⟨by simp [parsedFrom, decode], iff_of_true (by simp [parsedFrom, decode]) ⟨trivial, trivial⟩⟩
  · obtain ⟨hle, heq⟩ := ih r (by rw [← hlength, List.length_cons]; omega)
    have hread : parsedFrom T (some (u, w)) (.escaped c :: r) = (w ++ [0xFFFD]) ++ (c :: parsedFrom T none r) := by
      simp [parsedFrom]
    have hmeant : 0xFFFD :: (w ++ decode T (.escaped c :: r)) = (0xFFFD :: w) ++ (c :: decode T r) := rfl
    rw [hread, hmeant]
    constructor
    · simp only [List.length_append, List.length_cons, List.length_nil]
      omega
    · rw [List.append_eq_append_iff_of_size_eq_left (by simp), append_singleton_eq_cons_iff, List.cons.injEq, heq]
      simp [Part.isRaw, SurrogatesInPlace]
  · obtain ⟨hle, heq⟩ := ih r (by rw [← hlength, List.length_cons]; omega)
    have hno : ¬match (Part.unicode v :: r).dropWhile Part.isRaw with
      | [] => True
      | .escaped _ :: _ => ∀ p ∈ w.map Part.raw ++ (Part.unicode v :: r).takeWhile Part.isRaw, p = .raw 0xFFFD
      | _ => False := fun h => h
    by_cases hv : Low v
    · have hw : 0 < w.length := by
        cases w with
        | nil => exact absurd hv (halone v r rfl)
        | cons c w => exact Nat.succ_pos _
      rw [parsedFrom, if_pos hv, decode_alone fun _ _ _ h => not_high_of_low hv h.1, alone, if_pos (Or.inr hv)]
      rcases addChar_paired hT hu hv with hS | hS
      · rw [hS]
        constructor
        · simp only [List.length_append, List.length_cons, List.length_nil]
          omega
        · refine iff_of_false (fun h => ?_) fun h => hno h.1
          have hlen := congrArg List.length h
          simp only [List.length_append, List.length_cons, List.length_nil] at hlen
          omega
      · rw [hS]
        constructor
        · simp only [List.length_append, List.length_cons, List.length_nil]
          omega
        · refine iff_of_false (fun h => ?_) fun h => hno h.1
          have hsplit : ((w ++ [u]) ++ [v]) ++ parsedFrom T none r = ((0xFFFD :: w) ++ [0xFFFD]) ++ decode T r := by
            simpa using h
          have hlast := (List.append_inj hsplit (by simp)).1
          have hv' : v = 0xFFFD := by simpa using (List.append_inj hlast (by simp)).2
          rw [hv'] at hv
          exact absurd hv (by decide)
    · have hmore := length_decode_unicode hT v r
      have hread : parsedFrom T (some (u, w)) (.unicode v :: r) = (w ++ [0xFFFD]) ++ parsedFrom T none r := by
        simp [parsedFrom, hv]
      have hmeant : 0xFFFD :: (w ++ decode T (.unicode v :: r)) = (0xFFFD :: w) ++ decode T (.unicode v :: r) := rfl
      rw [hread, hmeant]
      constructor
      · simp only [List.length_append, List.length_cons, List.length_nil]
        omega
      · refine iff_of_false (fun h => ?_) fun h => hno h.1
        exact parsedFrom_ne_decode_unicode hT hle (List.append_inj h (by simp)).2

/-- What is read is no longer than what is meant, and the same exactly if the surrogates are in place. -/
theorem parsedFrom_spec (hT : T.AddsSupplementary) : ∀ ps : List Part,
    (parsedFrom T none ps).length ≤ (decode T ps).length ∧
      (parsedFrom T none ps = decode T ps ↔ SurrogatesInPlace ps)
  | [] => ⟨Nat.le_refl _, iff_of_true rfl trivial⟩
  | .raw c :: ps => by
    obtain ⟨hle, heq⟩ := parsedFrom_spec hT ps
    exact ⟨Nat.succ_le_succ hle, (by rw [parsedFrom, decode, List.cons.injEq, heq]; simp [SurrogatesInPlace])⟩
  | .escaped c :: ps => by
    obtain ⟨hle, heq⟩ := parsedFrom_spec hT ps
    exact ⟨Nat.succ_le_succ hle, (by rw [parsedFrom, decode, List.cons.injEq, heq]; simp [SurrogatesInPlace])⟩
  | .unicode u :: ps => by
    by_cases hpair : ∃ v r, ps = .unicode v :: r ∧ High u ∧ Low v
    · obtain ⟨v, r, rfl, hu, hv⟩ := hpair
      obtain ⟨hle, heq⟩ := parsedFrom_spec hT r
      have hread : parsedFrom T none (.unicode u :: .unicode v :: r) = T.addChar (paired u v) ++ parsedFrom T none r :=
        by
        simp [parsedFrom, hu, hv]
      rw [hread, decode_pair hu hv, List.append_cancel_left_eq, heq, SurrogatesInPlace, if_pos hu]
      refine ⟨?_, ⟨fun h => ⟨hv, h⟩, And.right⟩⟩
      rw [List.length_append, List.length_append]
      omega
    have halone : ∀ v r, ps = .unicode v :: r → ¬(High u ∧ Low v) := fun v r h huv => hpair ⟨v, r, h, huv⟩
    rw [decode_alone halone, surrogatesInPlace_alone halone, parsedFrom]
    by_cases hu : High u
    · rw [if_pos hu, alone, if_pos (Or.inl hu)]
      obtain ⟨hle, heq⟩ := parsedFrom_waiting hT hu (fun v r h hv => halone v r h ⟨hu, hv⟩)
        fun qs _ => parsedFrom_spec hT qs
      have hlow : ¬Low u := fun h => not_high_of_low h hu
      exact ⟨hle, heq.trans ⟨fun h => ⟨hlow, fun _ => h.1, h.2⟩, fun h => ⟨h.2.1 hu, h.2.2⟩⟩⟩
    · obtain ⟨hle, heq⟩ := parsedFrom_spec hT ps
      rw [if_neg hu]
      refine ⟨Nat.succ_le_succ hle, ?_⟩
      rw [List.cons.injEq, heq]
      by_cases hl : Low u
      · rw [alone, if_pos (Or.inr hl)]
        refine iff_of_false (fun h => ?_) fun h => h.1 hl
        rw [h.1] at hl
        exact absurd hl (by decide)
      · rw [alone, if_neg (by rintro (h | h); exacts [hu h, hl h])]
        exact ⟨fun h => ⟨hl, fun h' => absurd h' hu, h.2⟩, fun h => ⟨rfl, h.2.2⟩⟩
termination_by ps => ps.length

theorem rfc_piece_taken {p : Piece} (h : RfcPiece p) : TakenPiece T p := by
  cases p with
  | raw c => exact h.2
  | escape c =>
    refine ⟨?_, by rw [unescape_eq]; exact h⟩
    rintro rfl
    exact absurd (show (rfcEscapes.lookup 'u'.toNat).isSome = true from h) (by decide)
  | unicode a b c d =>
    have hhex : ∀ x ∈ [a, b, c, d], isHex x = true := by simpa [RfcPiece] using h
    exact Option.isSome_of_eq_some (parseHex_hex hhex (by simp))

/-- A string literal is read as what it stands for exactly if its escaped surrogates are in place. -/
theorem parseString_decode_iff (hT : T.AddsSupplementary) {ps : List Piece} (hps : rfc8259.string ps) (pos : Nat)
    (r : Str) :
    parseString T ⟨pos, renderPieces ps ++ '"'.toNat :: r⟩ =
        .ok (decode T (ps.map Piece.part), ⟨pos + (renderPieces ps).length + 1, r⟩) ↔
      SurrogatesInPlace (ps.map Piece.part) := by
  have htaken : (taken T).string ps := fun p hp => rfc_piece_taken (hps p hp)
  rw [parseString, stringLoop_taken htaken (by simp only [List.length_append, List.length_cons]; omega),
    StringState.readAll_parts hps]
  have hstart : (StringState.start.before : Str) = [] ∧ StringState.start.waiting = none := ⟨rfl, rfl⟩
  rw [hstart.1, hstart.2, List.nil_append, ← (parsedFrom_spec hT _).2]
  constructor
  · intro h
    exact congrArg Prod.fst (Except.ok.inj h)
  · intro h
    rw [h]

/-- A pair, and a high surrogate that the end of the literal flushes. -/
theorem parseString_pair :
    parseString integers ⟨0, renderPieces [.unicode 68 56 51 68, .unicode 68 69 48 48, .raw 97, .unicode 68 56 48 48] ++
        '"'.toNat :: []⟩ =
      .ok ([0x1F600, 97, 0xFFFD], ⟨20, []⟩) := by
  refine (parseString_decode_iff (fun _ _ _ => Or.inl rfl) ?_ 0 []).2 ?_
  · simp [Tokens.string, rfc8259, RfcPiece, isHex]
  · simp [SurrogatesInPlace, Piece.part, hexValue, hexDigit, High, Low, FlushedInPlace]

/-- The high surrogate waits over the `x` for the low one behind it. -/
theorem parseString_apart : ¬∀ ps : List Piece, rfc8259.string ps → ∀ (pos : Nat) (r : Str),
    parseString integers ⟨pos, renderPieces ps ++ '"'.toNat :: r⟩ =
      .ok (decode integers (ps.map Piece.part), ⟨pos + (renderPieces ps).length + 1, r⟩) := by
  intro h
  have hapart := h [.unicode 68 56 51 68, .raw 120, .unicode 68 69 48 48] (by
    simp [Tokens.string, rfc8259, RfcPiece, isHex]) 0 []
  have hread : parseString integers ⟨0, renderPieces [.unicode 68 56 51 68, .raw 120, .unicode 68 69 48 48] ++
      '"'.toNat :: []⟩ = .ok ([120, 0x1F600], ⟨14, []⟩) := rfl
  rw [hread] at hapart
  exact absurd (congrArg Prod.fst (Except.ok.inj hapart)) (by decide)

end EvilHaxe.Json
