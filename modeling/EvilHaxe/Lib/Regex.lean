/-
Regular expressions over characters, matched by derivatives, and the longest match of a list of them: of the
expressions that match the longest prefix, the first one is chosen.
-/

namespace Lib

/-- A set of characters, by ranges, or what is outside of them. -/
structure CharSet where
  ranges : List (Char × Char)
  compl : Bool
  deriving DecidableEq

def CharSet.contains (s : CharSet) (c : Char) : Bool := s.ranges.any (fun r => r.1 ≤ c && c ≤ r.2) != s.compl

inductive Regex where
  | none
  | eps
  | set (s : CharSet)
  | seq (a b : Regex)
  | alt (a b : Regex)
  | star (a : Regex)
  deriving DecidableEq

namespace Regex

/-- Whether the empty text matches. -/
def nullable : Regex → Bool
  | .none | .set _ => false
  | .eps | .star _ => true
  | .seq a b => a.nullable && b.nullable
  | .alt a b => a.nullable || b.nullable

/-- What is to match behind the character `c`. -/
def deriv (c : Char) : Regex → Regex
  | .none | .eps => .none
  | .set s => if s.contains c then .eps else .none
  | .seq a b => if a.nullable then .alt (.seq (a.deriv c) b) (b.deriv c) else .seq (a.deriv c) b
  | .alt a b => .alt (a.deriv c) (b.deriv c)
  | .star a => .seq (a.deriv c) (.star a)

def accepts (r : Regex) : List Char → Bool
  | [] => r.nullable
  | c :: cs => (r.deriv c).accepts cs

/-- The longest match among `rs` of a beginning of the text, from one found before: the number of the expression, and how
much it matches behind the `n` characters already read. -/
def longestFrom (rs : List Regex) (n : Nat) (best : Option (Nat × Nat)) : List Char → Option (Nat × Nat)
  | [] => ((rs.findIdx? nullable).map (·, n)).or best
  | c :: cs => longestFrom (rs.map (deriv c)) (n + 1) (((rs.findIdx? nullable).map (·, n)).or best) cs

def longest (rs : List Regex) (text : List Char) : Option (Nat × Nat) := longestFrom rs 0 Option.none text

/-! ## Literals and repetitions -/

def chars (ranges : List (Char × Char)) : Regex := .set ⟨ranges, false⟩

def char (c : Char) : Regex := chars [(c, c)]

/-- `Compl` of single characters. -/
def compl (cs : List Char) : Regex := .set ⟨cs.map fun c => (c, c), true⟩

def lit (s : String) : Regex := s.toList.foldr (fun c r => .seq (char c) r) .eps

def seqs (rs : List Regex) : Regex := rs.foldr .seq .eps

def alts (rs : List Regex) : Regex := rs.foldr .alt .none

def opt (r : Regex) : Regex := .alt r .eps

def plus (r : Regex) : Regex := .seq r (.star r)

/-! ## Characters that no match contains -/

/-- Whether nothing matches, as far as the structure shows. -/
def isNone : Regex → Bool
  | .none => true
  | .eps | .set _ | .star _ => false
  | .seq a b => a.isNone || b.isNone
  | .alt a b => a.isNone && b.isNone

/-- Whether no set of the expression contains `c`. -/
def avoids (c : Char) : Regex → Bool
  | .none | .eps => true
  | .set s => !s.contains c
  | .seq a b | .alt a b => a.avoids c && b.avoids c
  | .star a => a.avoids c

theorem not_nullable_of_isNone : ∀ {r : Regex}, r.isNone = true → r.nullable = false
  | .none, _ => rfl
  | .seq a b, h => by
    rw [isNone, Bool.or_eq_true] at h
    rw [nullable]
    rcases h with h | h
    · rw [not_nullable_of_isNone h, Bool.false_and]
    · rw [not_nullable_of_isNone h, Bool.and_false]
  | .alt a b, h => by
    rw [isNone, Bool.and_eq_true] at h
    rw [nullable, not_nullable_of_isNone h.1, not_nullable_of_isNone h.2]
    rfl

theorem isNone_deriv (c : Char) : ∀ {r : Regex}, r.isNone = true → (r.deriv c).isNone = true
  | .none, _ => rfl
  | .seq a b, h => by
    rw [isNone, Bool.or_eq_true] at h
    rw [deriv]
    rcases h with h | h
    · rw [if_neg (by simp [not_nullable_of_isNone h]), isNone, isNone_deriv c h, Bool.true_or]
    · split
      · rw [isNone, isNone, h, isNone_deriv c h, Bool.or_true]
        rfl
      · rw [isNone, h, Bool.or_true]
  | .alt a b, h => by
    rw [isNone, Bool.and_eq_true] at h
    rw [deriv, isNone, isNone_deriv c h.1, isNone_deriv c h.2]
    rfl

theorem accepts_of_isNone : ∀ {r : Regex} (w : List Char), r.isNone = true → r.accepts w = false
  | _, [], h => not_nullable_of_isNone h
  | _, c :: w, h => accepts_of_isNone w (isNone_deriv c h)

theorem isNone_of_avoids {c : Char} : ∀ {r : Regex}, r.avoids c = true → (r.deriv c).isNone = true
  | .none, _ | .eps, _ => rfl
  | .set s, h => by
    rw [avoids, Bool.not_eq_true'] at h
    rw [deriv, if_neg (by simp [h])]
    rfl
  | .seq a b, h => by
    rw [avoids, Bool.and_eq_true] at h
    rw [deriv]
    split
    · rw [isNone, isNone, isNone_of_avoids h.1, isNone_of_avoids h.2]
      rfl
    · rw [isNone, isNone_of_avoids h.1, Bool.true_or]
  | .alt a b, h => by
    rw [avoids, Bool.and_eq_true] at h
    rw [deriv, isNone, isNone_of_avoids h.1, isNone_of_avoids h.2]
    rfl
  | .star a, h => by
    rw [avoids] at h
    rw [deriv, isNone, isNone_of_avoids h, Bool.true_or]

theorem avoids_deriv {c : Char} (d : Char) : ∀ {r : Regex}, r.avoids c = true → (r.deriv d).avoids c = true
  | .none, _ | .eps, _ => rfl
  | .set s, _ => by
    rw [deriv]
    split <;> rfl
  | .seq a b, h => by
    rw [avoids, Bool.and_eq_true] at h
    rw [deriv]
    split
    · rw [avoids, avoids, avoids_deriv d h.1, avoids_deriv d h.2, h.2]
      rfl
    · rw [avoids, avoids_deriv d h.1, h.2]
      rfl
  | .alt a b, h => by
    rw [avoids, Bool.and_eq_true] at h
    rw [deriv, avoids, avoids_deriv d h.1, avoids_deriv d h.2]
    rfl
  | .star a, h => by
    rw [avoids] at h
    rw [deriv, avoids, avoids_deriv d h, avoids, h]
    rfl

/-- A match contains no character that the expression avoids. -/
theorem not_mem_of_accepts {c : Char} : ∀ {r : Regex} {w : List Char}, r.avoids c = true → r.accepts w = true → c ∉ w
  | _, [], _, _ => List.not_mem_nil
  | r, d :: w, h, hw => by
    intro hmem
    rw [accepts] at hw
    rcases List.mem_cons.1 hmem with rfl | hmem
    · rw [accepts_of_isNone w (isNone_of_avoids h)] at hw
      cases hw
    · exact not_mem_of_accepts (avoids_deriv d h) hw hmem

/-! ## Words -/

theorem accepts_alt : ∀ (a b : Regex) (w : List Char), (alt a b).accepts w = (a.accepts w || b.accepts w)
  | _, _, [] => rfl
  | a, b, c :: w => accepts_alt (a.deriv c) (b.deriv c) w

theorem accepts_none (w : List Char) : (none : Regex).accepts w = false := accepts_of_isNone w rfl

theorem accepts_alts (rs : List Regex) (w : List Char) : (alts rs).accepts w = rs.any (·.accepts w) := by
  induction rs with
  | nil => exact accepts_none w
  | cons r rs ih =>
    change (alt r (alts rs)).accepts w = _
    rw [accepts_alt, ih, List.any_cons]

theorem accepts_eps_seq (r : Regex) (w : List Char) : (seq eps r).accepts w = r.accepts w := by
  cases w with
  | nil => exact Bool.true_and _
  | cons c w =>
    change (alt (seq none r) (r.deriv c)).accepts w = (r.deriv c).accepts w
    rw [accepts_alt, accepts_of_isNone w rfl, Bool.false_or]

theorem contains_char (c d : Char) : CharSet.contains ⟨[(c, c)], false⟩ d = decide (d = c) := by
  by_cases h : d = c
  · simp [CharSet.contains, h]
  · simp only [CharSet.contains, List.any_cons, List.any_nil, Bool.or_false, h, decide_false, Bool.bne_false]
    rw [Bool.and_eq_false_iff, decide_eq_false_iff_not, decide_eq_false_iff_not]
    by_cases hle : c ≤ d
    · exact Or.inr fun hge => h (Char.le_antisymm hge hle)
    · exact Or.inl hle

theorem accepts_char_seq (c : Char) (r : Regex) (w : List Char) :
    (seq (char c) r).accepts w = true ↔ ∃ v, w = c :: v ∧ r.accepts v = true := by
  cases w with
  | nil => simp [accepts, nullable, char, chars]
  | cons d w =>
    have hderiv : (seq (char c) r).deriv d = seq (if d = c then eps else none) r := by
      simp [deriv, nullable, char, chars, contains_char]
    rw [accepts, hderiv]
    by_cases h : d = c
    · rw [if_pos h, accepts_eps_seq, h]
      simp
    · rw [if_neg h, accepts_of_isNone w rfl]
      simp [h]

/-- A literal matches itself and nothing else. -/
theorem accepts_lit (s : String) (w : List Char) : (lit s).accepts w = true ↔ w = s.toList := by
  unfold lit
  induction s.toList generalizing w with
  | nil =>
    cases w with
    | nil => exact iff_of_true rfl rfl
    | cons c w => exact iff_of_false (by simp [accepts, deriv, accepts_none]) (by simp)
  | cons c cs ih =>
    rw [List.foldr_cons, accepts_char_seq]
    constructor
    · rintro ⟨v, rfl, hv⟩
      rw [(ih v).1 hv]
    · rintro rfl
      exact ⟨cs, rfl, (ih cs).2 rfl⟩

theorem accepts_char (c : Char) (w : List Char) : (char c).accepts w = true ↔ w = [c] := by
  cases w with
  | nil => simp [accepts, nullable, char, chars]
  | cons d w =>
    have hderiv : (char c).deriv d = if d = c then eps else none := by simp [deriv, char, chars, contains_char]
    rw [accepts, hderiv]
    by_cases h : d = c
    · cases w <;> simp [h, accepts, nullable, deriv, accepts_none]
    · rw [if_neg h, accepts_none]
      simp [h]

/-! ## The longest match -/

theorem first_nullable {rs : List Regex} {j : Nat} (h : rs.findIdx? nullable = some j) :
    ∃ r, rs[j]? = some r ∧ r.nullable = true := by
  obtain ⟨hj, hnull, _⟩ := List.findIdx?_eq_some_iff_getElem.1 h
  exact ⟨rs[j], List.getElem?_eq_getElem hj, hnull⟩

/-- What is found is what was found before, and then nothing matches, or it is a match and nothing longer matches. -/
theorem longestFrom_spec : ∀ {text : List Char} {rs : List Regex} {n : Nat} {best : Option (Nat × Nat)} {i m : Nat},
    longestFrom rs n best text = some (i, m) →
      (best = some (i, m) ∧ ∀ k ≤ text.length, ∀ r ∈ rs, r.accepts (text.take k) = false) ∨
      ∃ k ≤ text.length, m = n + k ∧ (∃ r, rs[i]? = some r ∧ r.accepts (text.take k) = true) ∧
        ∀ k' ≤ text.length, k < k' → ∀ r ∈ rs, r.accepts (text.take k') = false
  | [], rs, n, best, i, m, h => by
    rw [longestFrom] at h
    cases hf : rs.findIdx? nullable with
    | none =>
      rw [hf] at h
      refine Or.inl ⟨h, fun k _ r hr => ?_⟩
      rw [List.take_nil]
      exact List.findIdx?_eq_none_iff.1 hf r hr
    | some j =>
      rw [hf] at h
      obtain ⟨rfl, rfl⟩ : j = i ∧ n = m := by simpa using h
      refine Or.inr ⟨0, Nat.le_refl _, rfl, first_nullable hf, fun k' hk' hlt => ?_⟩
      exact absurd hlt (Nat.not_lt.2 hk')
  | c :: cs, rs, n, best, i, m, h => by
    rw [longestFrom] at h
    rcases longestFrom_spec h with ⟨hbest, hno⟩ | ⟨k, hk, hm, ⟨r', hr', hacc⟩, hno⟩
    · have hlater : ∀ k ≤ cs.length, ∀ r ∈ rs, r.accepts ((c :: cs).take (k + 1)) = false := fun k hk r hr =>
        hno k hk (r.deriv c) (List.mem_map_of_mem hr)
      cases hf : rs.findIdx? nullable with
      | none =>
        rw [hf] at hbest
        refine Or.inl ⟨hbest, ?_⟩
        rintro (_ | k) hk r hr
        · exact List.findIdx?_eq_none_iff.1 hf r hr
        · exact hlater k (Nat.le_of_succ_le_succ hk) r hr
      | some j =>
        rw [hf] at hbest
        obtain ⟨rfl, rfl⟩ : j = i ∧ n = m := by simpa using hbest
        refine Or.inr ⟨0, Nat.zero_le _, rfl, first_nullable hf, ?_⟩
        rintro (_ | k) hk hlt r hr
        · exact absurd hlt (Nat.lt_irrefl 0)
        · exact hlater k (Nat.le_of_succ_le_succ hk) r hr
    · rw [List.getElem?_map, Option.map_eq_some_iff] at hr'
      obtain ⟨r, hr, rfl⟩ := hr'
      refine Or.inr ⟨k + 1, Nat.succ_le_succ hk, by omega, ⟨r, hr, hacc⟩, ?_⟩
      rintro (_ | k') hk' hlt s hs
      · exact absurd hlt (Nat.not_lt_zero _)
      · exact hno k' (Nat.le_of_succ_le_succ hk') (Nat.lt_of_succ_lt_succ hlt) (s.deriv c) (List.mem_map_of_mem hs)

/-- The longest match is a match of a beginning of the text, and nothing matches more. -/
theorem longest_spec {rs : List Regex} {text : List Char} {i m : Nat} (h : longest rs text = some (i, m)) :
    m ≤ text.length ∧ (∃ r, rs[i]? = some r ∧ r.accepts (text.take m) = true) ∧
      ∀ k ≤ text.length, m < k → ∀ r ∈ rs, r.accepts (text.take k) = false := by
  rcases longestFrom_spec h with ⟨h0, _⟩ | ⟨k, hk, hm, hr, hno⟩
  · cases h0
  · obtain rfl : m = k := by omega
    exact ⟨hk, hr, hno⟩

end Regex

end Lib
