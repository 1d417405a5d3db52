/-
When `find_line` finds the line of a position. Its cache is the line list as it was at some earlier time, so the
answer is the entry of that list.
-/
import EvilHaxe.Lexer.LexerFile

namespace EvilHaxe.Lexer.LexerFile

open Lib

/-- What every run keeps. The starts of the lines decrease down the list, to that of the first line; the cache holds the
list of an earlier time, up to `added` lines ago. -/
structure WF (f : LexerFile) (added old : List (Nat × Int)) : Prop where
  starts : f.llines.Pairwise fun a b => b.1 < a.1
  first : ∃ line, old.getLast? = some (0, line)
  llines : f.llines = added ++ old
  lalines : f.lalines = old.reverse.toArray
  llastindex : f.llastindex < f.lalines.size

namespace WF

variable {f : LexerFile} {added old : List (Nat × Int)}

theorem old_starts (h : WF f added old) : old.Pairwise fun a b => b.1 < a.1 := by
  have hstarts := h.starts
  rw [h.llines] at hstarts
  exact (List.pairwise_append.1 hstarts).2.1

theorem size_pos (h : WF f added old) : 0 < f.lalines.size := Nat.zero_lt_of_lt h.llastindex

theorem lalines_at (h : WF f added old) (i : Nat) : f.lalines[i]? = old.reverse[i]? := by
  rw [h.lalines]
  exact List.getElem?_toArray

theorem size_eq (h : WF f added old) : f.lalines.size = old.reverse.length := by
  rw [h.lalines]
  exact List.size_toArray

/-- The cached starts increase. -/
theorem ascending (h : WF f added old) : old.reverse.Pairwise fun a b => a.1 < b.1 :=
  List.pairwise_reverse.2 h.old_starts

theorem zeroth (h : WF f added old) : ∃ line, f.lalines[0]? = some (0, line) := by
  obtain ⟨line, hline⟩ := h.first
  refine ⟨line, ?_⟩
  rw [h.lalines_at, ← List.head?_eq_getElem?, List.head?_reverse, hline]

/-! ## The answer -/

/-- The entry at an index of the cache is the last one at or before `p` if the next one is behind `p`. -/
theorem entryAt_of_index (h : WF f added old) {p i : Nat} {e : Nat × Int} (he : f.lalines[i]? = some e) (hle : e.1 ≤ p)
    (hnext : ∀ e', f.lalines[i + 1]? = some e' → p < e'.1) : entryAt old p = some (e.2, (p : Int) - e.1) := by
  rw [h.lalines_at] at he
  have hfind : old.find? (fun a => a.1 ≤ p) = some e := by
    rw [find?_eq_some_iff_of_decreasing h.old_starts]
    refine ⟨List.mem_reverse.1 (List.mem_of_getElem? he), hle, fun a ha hap => ?_⟩
    obtain ⟨j, hj, hget⟩ := List.getElem_of_mem (List.mem_reverse.2 ha)
    obtain ⟨hi, hgeti⟩ := List.getElem?_eq_some_iff.1 he
    -- an entry behind `e` is at or behind the next one
    rcases Nat.lt_trichotomy j i with hlt | rfl | hgt
    · have := List.pairwise_iff_getElem.1 h.ascending j i hj hi hlt
      rw [hget, hgeti] at this
      exact Nat.le_of_lt this
    · exact Nat.le_of_eq (congrArg Prod.fst (hget.symm.trans hgeti))
    · have hi1 : i + 1 < old.reverse.length := by omega
      have hp := hnext old.reverse[i + 1] (by rw [h.lalines_at]; exact List.getElem?_eq_getElem hi1)
      rcases Nat.lt_or_ge (i + 1) j with hlt | hge
      · have := List.pairwise_iff_getElem.1 h.ascending (i + 1) j hi1 hj hlt
        rw [hget] at this
        omega
      · obtain rfl : j = i + 1 := by omega
        rw [hget] at hp
        omega
  rw [entryAt, hfind]
  rfl

/-- Whether the cached entry at an index starts at or before `p`. -/
def startsBy (f : LexerFile) (p i : Nat) : Bool := (f.lalines[i]?).any (·.1 ≤ p)

theorem loop_eq (p : Nat) {fuel min max : Nat} (hlt : min < max) (hmax : max ≤ f.lalines.size) :
    loop f p fuel min max = (bisect (startsBy f p) fuel min max).bind fun i =>
      f.lalines[i]?.map fun e => ((e.2, (p : Int) - e.1), { f with llast := p, llastindex := i }) := by
  induction fuel generalizing min max with
  | zero => rfl
  | succ fuel ih =>
    have hmed : (min + max) / 2 < f.lalines.size := by omega
    obtain ⟨e, he⟩ : ∃ e, f.lalines[(min + max) / 2]? = some e := ⟨_, Array.getElem?_eq_getElem hmed⟩
    simp only [loop, bisect, he]
    by_cases hmin : (min + max) / 2 = min
    · rw [if_pos hmin, if_pos hmin, Option.bind_some]
      rw [hmin] at he ⊢
      rw [he]
      rfl
    rw [if_neg hmin, if_neg hmin]
    have hbelow : startsBy f p ((min + max) / 2) = decide (e.1 ≤ p) := by rw [startsBy, he]; rfl
    rw [hbelow]
    by_cases hp : e.1 ≤ p
    · rw [if_neg (by omega), if_pos (decide_eq_true hp), ih (by omega) hmax]
    · rw [if_pos (by omega), if_neg (by simpa using hp), ih (by omega) (by omega)]

/-- The binary search ends and finds the entry of the cached list. -/
theorem loop_spec (h : WF f added old) (p : Nat) :
    ∃ f', loop f p f.lalines.size 0 f.lalines.size = (entryAt old p).map (·, f') ∧ (entryAt old p).isSome ∧
      WF f' added old ∧ f'.llines = f.llines := by
  obtain ⟨line, hzero⟩ := h.zeroth
  have hlo : startsBy f p 0 = true := by
    rw [startsBy, hzero]
    exact decide_eq_true (Nat.zero_le p)
  have hhi : startsBy f p f.lalines.size = false := by
    rw [startsBy, Array.getElem?_eq_none (Nat.le_refl _)]
    rfl
  obtain ⟨i, hi, -, hilt, hbelow, hnext⟩ := bisect_spec h.size_pos (Nat.sub_le _ _) hlo hhi
  obtain ⟨e, he⟩ : ∃ e, f.lalines[i]? = some e := ⟨_, Array.getElem?_eq_getElem hilt⟩
  have hle : e.1 ≤ p := by simpa [startsBy, he] using hbelow
  have hentry := h.entryAt_of_index he hle fun e' he' => by simpa [startsBy, he'] using hnext
  refine ⟨{ f with llast := p, llastindex := i }, ?_, ?_, ⟨h.starts, h.first, h.llines, h.lalines, hilt⟩, rfl⟩
  · rw [loop_eq p h.size_pos (Nat.le_refl _), hi, Option.bind_some, he, hentry]
    rfl
  · rw [hentry]
    rfl

/-- A query answers from the list the cache was made of. -/
theorem findLine_cached (h : WF f added old) (hsame : f.lmaxline = f.lline) (p : Nat) :
    ∃ f', findLine p f = (entryAt old p).map (·, f') ∧ (entryAt old p).isSome ∧ WF f' added old ∧ f'.llines = f.llines := by
  have hrebuild : f.rebuild = f := if_neg (not_not_intro hsame)
  obtain ⟨f', hloop, hsome, hwf, hlines⟩ := h.loop_spec p
  unfold findLine
  simp only [hrebuild]
  by_cases hlast : p ≥ f.llast
  · rw [if_pos hlast]
    obtain ⟨e, he⟩ : ∃ e, f.lalines[f.llastindex]? = some e := ⟨_, Array.getElem?_eq_getElem h.llastindex⟩
    obtain ⟨lp2, hlp2, hnext⟩ : ∃ lp2, (if f.llastindex = f.lalines.size - 1 then some maxInt
        else f.lalines[f.llastindex + 1]?.map (·.1)) = some lp2 ∧
        ∀ e', f.lalines[f.llastindex + 1]? = some e' → lp2 = e'.1 := by
      by_cases hend : f.llastindex = f.lalines.size - 1
      · refine ⟨maxInt, if_pos hend, fun e' he' => ?_⟩
        rw [Array.getElem?_eq_none (by omega)] at he'
        cases he'
      · have hin : f.llastindex + 1 < f.lalines.size := by have := h.llastindex; omega
        refine ⟨f.lalines[f.llastindex + 1].1, ?_, fun e' he' => ?_⟩
        · rw [if_neg hend, Array.getElem?_eq_getElem hin]
          rfl
        · rw [Array.getElem?_eq_getElem hin] at he'
          rw [← Option.some.inj he']
    simp only [he, hlp2]
    by_cases hin : p ≥ e.1 ∧ p < lp2
    · have hentry := h.entryAt_of_index he hin.1 fun e' he' => hnext e' he' ▸ hin.2
      rw [if_pos hin, hentry]
      exact ⟨f, rfl, rfl, h, rfl⟩
    · rw [if_neg hin]
      exact ⟨f', hloop, hsome, hwf, hlines⟩
  · rw [if_neg hlast]
    exact ⟨f', hloop, hsome, hwf, hlines⟩

/-! ## When it is right -/

/-- The cached list answers for the whole one exactly if no line was added at or before the position. -/
theorem entryAt_eq_iff (h : WF f added old) {p : Nat} (hsome : (entryAt old p).isSome) :
    entryAt old p = entryAt f.llines p ↔ ∀ e ∈ added, p < e.1 := by
  have hstarts := h.starts
  rw [h.llines] at hstarts ⊢
  have habove := (List.pairwise_append.1 hstarts).2.2
  constructor
  · intro heq e he
    by_contra hle
    obtain ⟨e0, he0⟩ : ∃ e0, added.find? (fun a => a.1 ≤ p) = some e0 :=
      Option.isSome_iff_exists.1 (List.find?_isSome.2 ⟨e, he, by simpa using hle⟩)
    obtain ⟨e1, he1⟩ : ∃ e1, old.find? (fun a => a.1 ≤ p) = some e1 := by
      unfold entryAt at hsome
      rw [Option.isSome_map] at hsome
      exact Option.isSome_iff_exists.1 hsome
    unfold entryAt at heq
    rw [List.find?_append, he0, he1] at heq
    have hcolumn : (p : Int) - e1.1 = p - e0.1 := congrArg Prod.snd (Option.some.inj heq)
    have hlt := habove e0 (List.mem_of_find?_eq_some he0) e1 (List.mem_of_find?_eq_some he1)
    omega
  · intro hbehind
    have hnone : added.find? (fun a => a.1 ≤ p) = none :=
      List.find?_eq_none.2 fun e he => by have := hbehind e he; simpa using this
    unfold entryAt
    rw [List.find?_append, hnone]
    rfl

end WF

variable {f : LexerFile}

theorem rebuild_stale (h : f.lmaxline ≠ f.lline) : f.rebuild =
    { f with lmaxline := f.lline, lalines := f.llines.reverse.toArray, llast := maxInt, llastindex := 0 } := if_pos h

theorem rebuild_rebuild (f : LexerFile) : f.rebuild.rebuild = f.rebuild := by
  by_cases h : f.lmaxline ≠ f.lline
  · rw [rebuild_stale h]
    exact if_neg (not_not_intro rfl)
  · have hsame : f.rebuild = f := if_neg h
    rw [hsame, hsame]

theorem findLine_rebuild (f : LexerFile) (p : Nat) : findLine p f.rebuild = findLine p f := by
  unfold findLine
  rw [rebuild_rebuild]

theorem WF.rebuilt {added old : List (Nat × Int)} (h : WF f added old) (hne : f.lmaxline ≠ f.lline) :
    WF f.rebuild [] f.llines := by
  rw [rebuild_stale hne]
  obtain ⟨line, hline⟩ := h.first
  refine ⟨h.starts, ⟨line, ?_⟩, rfl, rfl, ?_⟩
  · rw [h.llines, List.getLast?_append, hline]
    rfl
  · have hpos := h.size_pos
    rw [h.size_eq] at hpos
    change 0 < f.llines.reverse.toArray.size
    rw [List.size_toArray, List.length_reverse, h.llines, List.length_append]
    rw [List.length_reverse] at hpos
    omega

/-- The cache has all the lines that the answer depends on, or will be rebuilt. -/
def Query.Sees (q : Query) : Prop :=
  q.file.lmaxline ≠ q.file.lline ∨ ∀ e ∈ q.file.llines, e.1 ≤ q.p → e ∈ q.file.lalines

/-- What a query finds out and what it leaves behind. -/
theorem query_spec {added old : List (Nat × Int)} (h : WF f added old) (p : Nat) :
    (Query.answer ⟨f, p⟩ = entryAt f.llines p ↔ Query.Sees ⟨f, p⟩) ∧
      ∃ f' added' old', (f.step (.findLine p)).1 = f' ∧ WF f' added' old' := by
  by_cases hne : f.lmaxline ≠ f.lline
  · have hrebuilt := h.rebuilt hne
    have hlines : f.rebuild.llines = f.llines := by rw [rebuild_stale hne]
    have hsame : f.rebuild.lmaxline = f.rebuild.lline := by rw [rebuild_stale hne]
    obtain ⟨f', hfind, hsome, hwf, -⟩ := hrebuilt.findLine_cached hsame p
    rw [findLine_rebuild] at hfind
    obtain ⟨e, he⟩ := Option.isSome_iff_exists.1 hsome
    refine ⟨⟨fun _ => .inl hne, fun _ => ?_⟩, f', [], f.llines, ?_, hwf⟩
    · rw [Query.answer, hfind, he]
      rfl
    · rw [step, hfind, he]
      rfl
  · have hsame : f.lmaxline = f.lline := not_not.1 hne
    obtain ⟨f', hfind, hsome, hwf, -⟩ := h.findLine_cached hsame p
    have hanswer : Query.answer ⟨f, p⟩ = entryAt old p := by
      rw [Query.answer, hfind, Option.map_map]
      exact Option.map_id'
    obtain ⟨e, he⟩ := Option.isSome_iff_exists.1 hsome
    refine ⟨?_, f', added, old, ?_, hwf⟩
    · rw [hanswer, h.entryAt_eq_iff hsome]
      constructor
      · intro hbehind
        refine .inr fun e hmem hle => ?_
        have hmem : e ∈ added ++ old := h.llines ▸ hmem
        rcases List.mem_append.1 hmem with hadded | hold
        · exact absurd hle (Nat.not_le.2 (hbehind e hadded))
        · change e ∈ f.lalines
          rw [h.lalines]
          simpa using hold
      · rintro (hstale | hcached) e hadded
        · exact absurd hstale hne
        · by_contra hle
          have hmem : e ∈ f.llines := h.llines ▸ List.mem_append_left old hadded
          have hold : e ∈ f.lalines := hcached e hmem (Nat.not_lt.1 hle)
          rw [h.lalines] at hold
          have hstarts := h.starts
          rw [h.llines] at hstarts
          have := (List.pairwise_append.1 hstarts).2.2 e hadded e (by simpa using hold)
          omega
    · rw [step, hfind, he]
      rfl

/-! ## Runs -/

theorem wf_makeFile : WF makeFile [] [(0, 1)] :=
  ⟨List.pairwise_singleton _ _, ⟨1, rfl⟩, rfl, rfl, by decide⟩

theorem WF.newline {added old : List (Nat × Int)} (h : WF f added old) (skip : Nat) :
    WF (f.newline (f.lastStart + skip + 1)) ((f.lastStart + skip + 1, wrap (f.lline + 1)) :: added) old where
  starts := by
    refine List.pairwise_cons.2 ⟨fun e he => ?_, h.starts⟩
    change e ∈ f.llines at he
    have hle : e.1 ≤ f.lastStart := by
      have hstarts := h.starts
      unfold lastStart
      cases hlines : f.llines with
      | nil =>
        rw [hlines] at he
        cases he
      | cons a l =>
        rw [hlines] at he hstarts
        rcases List.mem_cons.1 he with rfl | he
        · exact Nat.le_refl _
        · exact Nat.le_of_lt ((List.pairwise_cons.1 hstarts).1 e he)
    exact Nat.lt_succ_of_le (Nat.le_trans hle (Nat.le_add_right _ _))
  first := h.first
  llines := congrArg _ h.llines
  lalines := h.lalines
  llastindex := h.llastindex

theorem WF.step {added old : List (Nat × Int)} (h : WF f added old) (e : Event) :
    ∃ added' old', WF (f.step e).1 added' old' := by
  cases e with
  | newline skip => exact ⟨_, _, h.newline skip⟩
  | sharpLine line => exact ⟨added, old, h.starts, h.first, h.llines, h.lalines, h.llastindex⟩
  | findLine p =>
    obtain ⟨-, f', added', old', hstep, hwf⟩ := query_spec h p
    exact ⟨added', old', hstep ▸ hwf⟩

/-- Every query of a run is made of a file that keeps the invariant. -/
theorem wf_queries {es : List Event} : ∀ {f : LexerFile} {added old : List (Nat × Int)}, WF f added old →
    ∀ q ∈ queries f es, ∃ added old, WF q.file added old := by
  induction es with
  | nil =>
    intro f added old h q hq
    cases hq
  | cons e es ih =>
    intro f added old h q hq
    obtain ⟨added', old', hwf⟩ := h.step e
    cases e with
    | newline skip => exact ih hwf q hq
    | sharpLine line => exact ih hwf q hq
    | findLine p =>
      rcases List.mem_cons.1 hq with rfl | hq
      · exact ⟨added, old, h⟩
      · exact ih hwf q hq

/-- In a run every query finds the entry of the line list that a linear search finds, exactly if at each of them the cache
has the lines it needs or is out of step with the line counter. -/
theorem findLine_right_iff (es : List Event) :
    (∀ q ∈ queries makeFile es, q.answer = entryAt q.file.llines q.p) ↔ ∀ q ∈ queries makeFile es, q.Sees := by
  have hquery : ∀ q ∈ queries makeFile es, (q.answer = entryAt q.file.llines q.p ↔ q.Sees) := by
    intro q hq
    obtain ⟨added, old, hwf⟩ := wf_queries wf_makeFile q hq
    exact (query_spec hwf q.p).1
  constructor
  · intro h q hq
    exact (hquery q hq).1 (h q hq)
  · intro h q hq
    exact (hquery q hq).2 (h q hq)

/-- A file that begins with the directive `#line 1`. The end of that line brings the counter back to where it was, and the
position behind it is looked up in a cache that has the first line only. -/
theorem sharpLine_stale : ¬ ∀ es, ∀ q ∈ queries makeFile es, q.answer = entryAt q.file.llines q.p := by
  intro h
  have hq := h [.sharpLine 1, .newline 7, .findLine 10] _ List.mem_cons_self
  revert hq
  decide

end EvilHaxe.Lexer.LexerFile
