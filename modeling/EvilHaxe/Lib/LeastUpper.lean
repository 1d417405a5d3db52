/-
Properties of partial functions that say something of their results only. The least upper bound of functions with such
a property has it too, so it holds of a function that is defined as the least fixpoint of a recursion if a round keeps it.
-/
namespace Lib

section

variable {F ι β : Type}

/-- A property of functions that says what their results satisfy. -/
structure OfResults (app : F → ι → Option β) (M : F → Prop) : Prop where
  intro ::
  results : ∃ P : ι → β → Prop, ∀ f, M f ↔ ∀ i b, app f i = some b → P i b

variable {app : F → ι → Option β} {M : F → Prop}

theorem OfResults.and {N : F → Prop} (hM : OfResults app M) (hN : OfResults app N) :
    OfResults app fun f => M f ∧ N f := by
  obtain ⟨P, hP⟩ := hM
  obtain ⟨Q, hQ⟩ := hN
  refine ⟨fun i b => P i b ∧ Q i b, fun f => ?_⟩
  rw [hP, hQ]
  exact ⟨fun h i b hb => ⟨h.1 i b hb, h.2 i b hb⟩, fun h => ⟨fun i b hb => (h i b hb).1, fun i b hb => (h i b hb).2⟩⟩

theorem OfResults.forall {α : Sort _} {N : α → F → Prop} (h : ∀ a, OfResults app (N a)) :
    OfResults app fun f => ∀ a, N a f := by
  refine ⟨fun i b => ∀ a, (h a).results.choose i b, fun f => ?_⟩
  constructor
  · intro hf i b hb a
    exact ((h a).results.choose_spec f).1 (hf a) i b hb
  · intro hf a
    exact ((h a).results.choose_spec f).2 fun i b hb => hf i b hb a

theorem OfResults.comap {G κ : Type} {app' : G → κ → Option β} {N : G → Prop} (hN : OfResults app' N) (g : F → G)
    (k : κ → ι) (hk : ∀ f j, app' (g f) j = app f (k j)) : OfResults app fun f => N (g f) := by
  obtain ⟨P, hP⟩ := hN
  refine ⟨fun i b => ∀ j, k j = i → P j b, fun f => ?_⟩
  rw [hP]
  constructor
  · rintro h _ b hb j rfl
    exact h j b ((hk f j).trans hb)
  · intro h j b hb
    exact h (k j) b ((hk f j).symm.trans hb) j rfl

variable {c : F → Prop} {le : F → F → Prop} {rel : Option β → Option β → Prop}

/-- The bound is the one that the order is known to have, whatever it is. -/
theorem OfResults.choose (hM : OfResults app M) (happ : ∀ g : ι → Option β, ∃ f, ∀ i, app f i = g i)
    (hle : ∀ f g, le f g ↔ ∀ i, rel (app f i) (app g i)) (hrel : ∀ u v, rel u v ↔ u = none ∨ u = v)
    (h : ∀ f, c f → M f) (hsup : ∃ x, ∀ y, le x y ↔ ∀ z, c z → le z y) : M (Classical.choose hsup) := by
  classical
  obtain ⟨P, hP⟩ := hM
  have hx := Classical.choose_spec hsup
  revert hx
  generalize Classical.choose hsup = x
  intro hx
  simp only [hrel] at hle
  have hbelow : ∀ z, c z → le z x := (hx x).1 ((hle x x).2 fun _ => .inr rfl)
  -- what of `x` satisfies the property is an upper bound, and so it is all of `x`
  obtain ⟨y, hy⟩ := happ fun i => if ∀ b, app x i = some b → P i b then app x i else none
  have hbound : ∀ z, c z → le z y := by
    intro z hz
    refine (hle z y).2 fun i => ?_
    rcases (hle z x).1 (hbelow z hz) i with hn | he
    · exact .inl hn
    · refine .inr ?_
      rw [hy, he, if_pos]
      rw [← he]
      exact (hP z).1 (h z hz) i
  refine (hP x).2 fun i b hb => ?_
  rcases (hle x y).1 ((hx y).2 hbound) i with hn | he
  · rw [hb] at hn
    cases hn
  · rw [hy] at he
    split at he
    · next hPi => exact hPi b hb
    · rw [hb] at he
      cases he

end

end Lib
