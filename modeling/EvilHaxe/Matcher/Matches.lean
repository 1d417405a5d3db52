/-
Laws of the reference meaning: how the matches of a row change when its columns are permuted, when an
or-pattern is split, and when a value is taken apart; and which variables a match binds.
-/
import EvilHaxe.Matcher.Semantics
import Mathlib.Data.List.Perm.Basic
import Mathlib.Data.List.Forall2

namespace EvilHaxe.Matcher

variable {V : Type} (R : Runtime V)

/-! ## Rows as lists of patterns paired with values -/

/-- `matchAll` on pairs. -/
def pairMatches : List (Pattern × V) → List (List (Nat × V))
  | [] => [[]]
  | (pat, v) :: z => (patMatches R pat v).flatMap fun β => (pairMatches z).map (β ++ ·)

theorem matchAll_map : ∀ z : List (Pattern × V),
    matchAll R (z.map Prod.fst) (z.map Prod.snd) = pairMatches R z
  | [] => by simp only [List.map_nil, matchAll, pairMatches]
  | (pat, v) :: z => by simp only [List.map_cons, matchAll, pairMatches, matchAll_map z]

/-- Patterns and values of equal number are a list of pairs. -/
theorem exists_pairs {α β : Type} : ∀ {l : List α} {l' : List β}, l.length = l'.length →
    ∃ z : List (α × β), l = z.map Prod.fst ∧ l' = z.map Prod.snd
  | [], [], _ => ⟨[], rfl, rfl⟩
  | a :: l, b :: l', h => by
    obtain ⟨z, rfl, rfl⟩ := exists_pairs (Nat.succ.inj h)
    exact ⟨(a, b) :: z, rfl, rfl⟩

theorem mem_pairMatches_cons {pat : Pattern} {v : V} {z : List (Pattern × V)} {β : List (Nat × V)} :
    β ∈ pairMatches R ((pat, v) :: z) ↔
      ∃ β1 ∈ patMatches R pat v, ∃ β2 ∈ pairMatches R z, β = β1 ++ β2 := by
  simp only [pairMatches, List.mem_flatMap, List.mem_map]
  constructor
  · rintro ⟨β1, h1, β2, h2, rfl⟩; exact ⟨β1, h1, β2, h2, rfl⟩
  · rintro ⟨β1, h1, β2, h2, rfl⟩; exact ⟨β1, h1, β2, h2, rfl⟩

/-- The order of the columns does not change the matches, up to the order of the bindings. -/
theorem pairMatches_perm {z z' : List (Pattern × V)} (h : z.Perm z') :
    ∀ {β}, β ∈ pairMatches R z → ∃ β' ∈ pairMatches R z', β.Perm β' := by
  induction h with
  | nil => exact fun hβ => ⟨_, hβ, .refl _⟩
  | @cons pv z z' _ ih =>
    intro β hβ
    obtain ⟨β1, h1, β2, h2, rfl⟩ := (mem_pairMatches_cons R).1 hβ
    obtain ⟨β2', h2', hp⟩ := ih h2
    exact ⟨β1 ++ β2', (mem_pairMatches_cons R).2 ⟨β1, h1, β2', h2', rfl⟩, hp.append_left β1⟩
  | swap pv pv' z =>
    intro β hβ
    obtain ⟨β1, h1, β23, h23, rfl⟩ := (mem_pairMatches_cons R).1 hβ
    obtain ⟨β2, h2, β3, h3, rfl⟩ := (mem_pairMatches_cons R).1 h23
    refine ⟨β2 ++ (β1 ++ β3), (mem_pairMatches_cons R).2 ⟨β2, h2, β1 ++ β3,
      (mem_pairMatches_cons R).2 ⟨β1, h1, β3, h3, rfl⟩, rfl⟩, ?_⟩
    simpa only [List.append_assoc] using List.perm_append_comm.append_right β3
  | trans _ _ ih1 ih2 =>
    intro β hβ
    obtain ⟨β', h', hp⟩ := ih1 hβ
    obtain ⟨β'', h'', hp'⟩ := ih2 h'
    exact ⟨β'', h'', hp.trans hp'⟩

/-! ## Matches of composed rows -/

theorem mem_matchAll_cons {pat : Pattern} {pats : List Pattern} {v : V} {vs : List V}
    {β : List (Nat × V)} :
    β ∈ matchAll R (pat :: pats) (v :: vs) ↔
      ∃ β1 ∈ patMatches R pat v, ∃ β2 ∈ matchAll R pats vs, β = β1 ++ β2 := by
  simp only [matchAll, List.mem_flatMap, List.mem_map]
  constructor
  · rintro ⟨β1, h1, β2, h2, rfl⟩; exact ⟨β1, h1, β2, h2, rfl⟩
  · rintro ⟨β1, h1, β2, h2, rfl⟩; exact ⟨β1, h1, β2, h2, rfl⟩

theorem mem_matchAll_append {pats' : List Pattern} {vs' : List V} :
    ∀ {pats : List Pattern} {vs : List V} {β : List (Nat × V)}, pats.length = vs.length →
      (β ∈ matchAll R (pats ++ pats') (vs ++ vs') ↔
        ∃ β1 ∈ matchAll R pats vs, ∃ β2 ∈ matchAll R pats' vs', β = β1 ++ β2)
  | [], [], β, _ => by simp [matchAll]
  | pat :: pats, v :: vs, β, h => by
    simp only [List.cons_append, mem_matchAll_cons]
    constructor
    · rintro ⟨β1, h1, β23, h23, rfl⟩
      obtain ⟨β2, h2, β3, h3, rfl⟩ := (mem_matchAll_append (Nat.succ.inj h)).1 h23
      exact ⟨β1 ++ β2, ⟨β1, h1, β2, h2, rfl⟩, β3, h3, (List.append_assoc ..).symm⟩
    · rintro ⟨_, ⟨β1, h1, β2, h2, rfl⟩, β3, h3, rfl⟩
      exact ⟨β1, h1, β2 ++ β3, (mem_matchAll_append (Nat.succ.inj h)).2 ⟨β2, h2, β3, h3, rfl⟩,
        List.append_assoc ..⟩

/-- Wildcards for the parts of a value match it without bindings. -/
theorem matchAll_replicate : ∀ vs : List V,
    matchAll R (List.replicate vs.length .patAny) vs = [[]]
  | [] => by simp [matchAll]
  | v :: vs => by
    simp [List.replicate_succ, matchAll, patMatches, matchAll_replicate vs]

/-! ## Variables -/

mutual

/-- A match binds each variable of the pattern as often as it occurs. -/
theorem vars_patMatches : ∀ (pat : Pattern) {v : V} {β : List (Nat × V)}, VarsOk pat →
    β ∈ patMatches R pat v → (β.map Prod.fst).Perm (patVars pat)
  | .patAny, v, β, _, h => by
    obtain rfl : β = [] := by simpa [patMatches] using h
    exact .refl _
  | .patBind x pat, v, β, hv, h => by
    simp only [patMatches, List.mem_map] at h
    obtain ⟨β', h', rfl⟩ := h
    exact (vars_patMatches pat hv h').cons x
  | .patOr pat1 pat2, v, β, ⟨hv1, hv2, hp⟩, h => by
    simp only [patMatches, List.mem_append] at h
    rcases h with h | h
    · exact vars_patMatches pat1 hv1 h
    · exact (vars_patMatches pat2 hv2 h).trans hp.symm
  | .patConstructor con pats, v, β, hv, h => by
    simp only [patMatches] at h
    split at h
    · exact vars_matchAll pats hv h
    · cases h
  | .patTuple _, v, β, _, h => by simp [patMatches] at h
  | .patExtractor ex pat, v, β, hv, h => by
    simp only [patMatches] at h
    exact vars_patMatches pat hv h

theorem vars_matchAll : ∀ (pats : List Pattern) {vs : List V} {β : List (Nat × V)}, VarsOkAll pats →
    β ∈ matchAll R pats vs → (β.map Prod.fst).Perm (patsVars pats)
  | [], [], β, _, h => by
    obtain rfl : β = [] := by simpa [matchAll] using h
    exact .refl _
  | [], _ :: _, _, _, h => by simp [matchAll] at h
  | _ :: _, [], _, _, h => by simp [matchAll] at h
  | pat :: pats, v :: vs, β, hv, h => by
    obtain ⟨β1, h1, β2, h2, rfl⟩ := (mem_matchAll_cons R).1 h
    rw [List.map_append]
    exact (vars_patMatches pat hv.1 h1).append (vars_matchAll pats hv.2 h2)

end

theorem vars_topMatches : ∀ (pat : Pattern) {vs : List V} {β : List (Nat × V)}, VarsOk pat →
    β ∈ topMatches R pat vs → (β.map Prod.fst).Perm (patVars pat)
  | .patTuple pats, vs, β, hv, h => vars_matchAll R pats hv h
  | .patOr pat1 pat2, vs, β, ⟨hv1, hv2, hp⟩, h => by
    simp only [topMatches, List.mem_append] at h
    rcases h with h | h
    · exact vars_topMatches pat1 hv1 h
    · exact (vars_topMatches pat2 hv2 h).trans hp.symm
  | .patAny, [v], β, hv, h => vars_patMatches R _ hv h
  | .patBind x pat, [v], β, hv, h => vars_patMatches R (.patBind x pat) hv h
  | .patConstructor c pats, [v], β, hv, h => vars_patMatches R (.patConstructor c pats) hv h
  | .patExtractor ex pat, [v], β, hv, h => vars_patMatches R (.patExtractor ex pat) hv h

end EvilHaxe.Matcher
