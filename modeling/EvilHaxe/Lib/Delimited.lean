/-
Reads that know where they end. What is read one after the other is read back from the words put one behind the other, and
where these are cut, that is noticed.
-/
import Mathlib.Data.List.Basic

namespace Lib

variable {σ ε ι α : Type}

/-- `ahead` says what is left to read. In front of `w` the value is `a` and what is behind `w` is left; in front of a part of
`w` the read fails with `cut`. -/
structure Delimited (ahead : σ → List ι → Prop) (cut : ε) (w : List ι) (a : α) (read : σ → Except ε (α × σ)) : Prop where
  takes : ∀ s rest, ahead s (w ++ rest) → ∃ s', read s = .ok (a, s') ∧ ahead s' rest
  cut : ∀ s front more, ahead s front → more ≠ [] → w = front ++ more → read s = .error cut

namespace Delimited

variable {ahead : σ → List ι → Prop} {cut : ε} {w ws : List ι} {a : α} {as : List α} {read : σ → Except ε (α × σ)}
  {reads : σ → Except ε (List α × σ)}

theorem nil : Delimited ahead cut ([] : List ι) a fun s => .ok (a, s) where
  takes s _ h := ⟨s, rfl, h⟩
  cut _ _ _ _ hmore hw := absurd (List.append_eq_nil_iff.1 hw.symm).2 hmore

theorem cons (h : Delimited ahead cut w a read) (hs : Delimited ahead cut ws as reads) :
    Delimited ahead cut (w ++ ws) (a :: as) fun s => do
      let (a, s) ← read s
      let (as, s) ← reads s
      return (a :: as, s) where
  takes s rest hahead := by
    rw [List.append_assoc] at hahead
    obtain ⟨s1, hread, h1⟩ := h.takes s _ hahead
    obtain ⟨s', hreads, hend⟩ := hs.takes s1 rest h1
    refine ⟨s', ?_, hend⟩
    rw [hread]
    simp only [bind, Except.bind, hreads]
    rfl
  cut s front more hahead hmore hw := by
    -- the cut is behind the first word, within it, or right at its end
    rcases List.append_eq_append_iff.1 hw with ⟨u, rfl, hrest⟩ | ⟨u, hsplit, hrest⟩
    · obtain ⟨s1, hread, h1⟩ := h.takes s u hahead
      rw [hread]
      simp only [bind, Except.bind, hs.cut s1 u more h1 hmore hrest]
    · rcases eq_or_ne u [] with rfl | hu
      · obtain ⟨s1, hread, h1⟩ := h.takes s [] (by rwa [hsplit, List.append_nil, List.append_nil])
        rw [hread]
        simp only [bind, Except.bind, hs.cut s1 [] more h1 hmore hrest.symm]
      · rw [h.cut s front u hahead hu hsplit]
        rfl

end Delimited

end Lib
