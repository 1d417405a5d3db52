/-
When `normalize_path` keeps the meaning of a path. What is on its accumulator is what the steps read so far leave
uncancelled, above the root if the path is absolute.
-/
import EvilHaxe.Path.Components

namespace EvilHaxe.Path

open Lib SplitResult

/-! ## Components as steps -/

theorem stepOf_dots : stepOf ['.', '.'] = .up := rfl

theorem stepOf_dot : stepOf ['.'] = .here := rfl

theorem stepOf_name {t : Str} (ht : Part t) (hdot : t ≠ ['.']) (hdots : t ≠ ['.', '.']) : stepOf t = .down t := by
  rw [stepOf, if_neg hdots, if_neg (by simp [hdot, ht.1])]

theorem stepOf_eq_up {t : Str} (h : stepOf t = .up) : t = ['.', '.'] := by
  unfold stepOf at h
  split at h
  next hdots => exact hdots
  next => split at h <;> cases h

/-- Components that stay on the accumulator. -/
def Kept (t : Str) : Prop := Part t ∧ t ≠ ['.', '.']

theorem Kept.stepOf_ne {t : Str} (h : Kept t) : stepOf t ≠ .up := fun heq => h.2 (stepOf_eq_up heq)

/-- The way down that kept components stand for. -/
theorem walk_kept {acc : List Str} (h : ∀ t ∈ acc, Kept t) (place : List Str) :
    Step.walk place (acc.reverse.map stepOf) = Step.left (acc.map stepOf) ++ place := by
  induction acc with
  | nil => rfl
  | cons t acc ih =>
    obtain ⟨ht, hacc⟩ := List.forall_mem_cons.1 h
    rw [List.reverse_cons, List.map_append, Step.walk_append, ih hacc, List.map_cons]
    by_cases hdot : t = ['.']
    · subst hdot
      rfl
    · rw [List.map_cons, stepOf_name ht.1 hdot ht.2]
      rfl

/-! ## The accumulator -/

theorem dirStep_push {acc : List Str} {t : Str} (hdots : t ≠ ['.', '.']) (hdot : ¬ (t = ['.'] ∧ acc = [])) :
    dirStep acc t = .ok (t :: acc) := by
  rw [dirStep.eq_def, if_neg hdot, if_neg hdots]

theorem foldlM_snoc {d acc : List Str} {t : Str} {start : List Str} (h : d.foldlM dirStep start = .ok acc) :
    (d ++ [t]).foldlM dirStep start = dirStep acc t := by
  rw [List.foldlM_append, h]
  change (dirStep acc t >>= pure) = _
  exact bind_pure _

theorem foldlM_snoc_error {d : List Str} {t : Str} {start : List Str} {e : Raised} (h : d.foldlM dirStep start = .error e) :
    (d ++ [t]).foldlM dirStep start = .error e := by
  rw [List.foldlM_append, h]
  rfl

theorem dirStep_kept {acc : List Str} {t : Str} (ht : Part t) (hacc : ∀ t ∈ acc, Kept t) :
    (∃ e, dirStep acc t = .error e) ∨ ∃ acc', dirStep acc t = .ok acc' ∧ ∀ t ∈ acc', Kept t := by
  by_cases hdots : t = ['.', '.']
  · subst hdots
    cases acc with
    | nil => exact .inl ⟨.exit, rfl⟩
    | cons a acc => exact .inr ⟨acc, rfl, (List.forall_mem_cons.1 hacc).2⟩
  by_cases hdot : t = ['.'] ∧ acc = []
  · obtain ⟨rfl, rfl⟩ := hdot
    exact .inr ⟨[], rfl, nofun⟩
  · exact .inr ⟨t :: acc, dirStep_push hdots hdot, List.forall_mem_cons.2 ⟨⟨ht, hdots⟩, hacc⟩⟩

/-! ## An absolute path -/

/-- Above the root the accumulator holds what is left, or the root was cancelled and the path is relative now. -/
theorem absolute_run {d : List Str} (hd : ∀ t ∈ d, Part t) :
    (∃ acc, d.foldlM dirStep [[]] = .ok (acc ++ [[]]) ∧ Step.Cancels Step.Anything (d.map stepOf) (acc.map stepOf) ∧
        ∀ t ∈ acc, Kept t) ∨
      (¬ ∃ s, Step.Cancels Step.Anything (d.map stepOf) s) ∧
        ((∃ e, d.foldlM dirStep [[]] = .error e) ∨ ∃ acc, d.foldlM dirStep [[]] = .ok acc ∧ ∀ t ∈ acc, Kept t) := by
  induction d using List.reverseRecOn with
  | nil => exact .inl ⟨[], rfl, .nil, nofun⟩
  | append_singleton d t ih =>
    have ht : Part t := hd t (by simp)
    rw [List.map_append]
    rcases ih fun t ht => hd t (List.mem_append_left _ ht) with ⟨acc, hrun, hcancels, hkept⟩ | ⟨hnot, hrun⟩
    · rw [foldlM_snoc hrun]
      by_cases hdots : t = ['.', '.']
      · subst hdots
        cases acc with
        | nil =>
          -- the root itself is cancelled
          refine .inr ⟨?_, .inr ⟨[], rfl, nofun⟩⟩
          rintro ⟨s, hs⟩
          rcases Step.cancels_snoc hs with ⟨hup, -⟩ | ⟨-, b, hb, -⟩
          · exact hup rfl
          · cases hb.unique hcancels
        | cons a acc => exact .inl ⟨acc, rfl, .cancel hcancels trivial, (List.forall_mem_cons.1 hkept).2⟩
      · have hpush : dirStep (acc ++ [[]]) t = .ok (t :: (acc ++ [[]])) := dirStep_push hdots (by simp)
        exact .inl ⟨t :: acc, hpush, .stay hcancels (Kept.stepOf_ne ⟨ht, hdots⟩),
          List.forall_mem_cons.2 ⟨⟨ht, hdots⟩, hkept⟩⟩
    · refine .inr ⟨Step.not_cancels_snoc hnot, ?_⟩
      rcases hrun with ⟨e, he⟩ | ⟨acc, hacc, hkept⟩
      · exact .inl ⟨e, foldlM_snoc_error he⟩
      · rw [foldlM_snoc hacc]
        exact dirStep_kept ht hkept

/-! ## A relative path -/

/-- The accumulator holds what is left but for the components `.` that came first; or some `.` was cancelled, and there are
too many names. -/
theorem relative_run {d : List Str} (hd : ∀ t ∈ d, Part t) :
    (∃ acc dots, d.foldlM dirStep [] = .ok acc ∧ Step.Cancels Step.IsDown (d.map stepOf) (acc.map stepOf ++ dots) ∧
        (∀ a ∈ dots, a = .here) ∧ acc.getLast? ≠ some ['.'] ∧ ∀ t ∈ acc, Kept t) ∨
      (¬ ∃ s, Step.Cancels Step.IsDown (d.map stepOf) s) ∧ ((∃ e, d.foldlM dirStep [] = .error e) ∨
        ∃ acc, d.foldlM dirStep [] = .ok acc ∧ (∀ t ∈ acc, Kept t) ∧
          Step.depth (d.map stepOf) < (Step.left (acc.map stepOf)).length) := by
  induction d using List.reverseRecOn with
  | nil => exact .inl ⟨[], [], rfl, .nil, by simp, by simp, by simp⟩
  | append_singleton d t ih =>
    have ht : Part t := hd t (by simp)
    rw [List.map_append]
    rcases ih fun t ht => hd t (List.mem_append_left _ ht) with ⟨acc, dots, hrun, hcancels, hdots, hlast, hkept⟩ | ⟨hnot, hrun⟩
    · rw [foldlM_snoc hrun]
      by_cases hup : t = ['.', '.']
      · subst hup
        cases acc with
        | nil =>
          refine .inr ⟨?_, .inl ⟨.exit, rfl⟩⟩
          rintro ⟨s, hs⟩
          rcases Step.cancels_snoc hs with ⟨hne, -⟩ | ⟨-, b, hb, name, rfl⟩
          · exact hne rfl
          · have hmem : Step.down name ∈ dots := by
              rw [List.map_nil, List.nil_append] at hcancels
              rw [hcancels.unique hb]
              exact List.mem_cons_self
            cases hdots _ hmem
        | cons a acc =>
          obtain ⟨ha, hacc⟩ := List.forall_mem_cons.1 hkept
          by_cases hdot : a = ['.']
          · subst hdot
            refine .inr ⟨?_, .inr ⟨acc, rfl, hacc, ?_⟩⟩
            · rintro ⟨s, hs⟩
              rcases Step.cancels_snoc hs with ⟨hne, -⟩ | ⟨-, b, hb, name, rfl⟩
              · exact hne rfl
              · cases (List.cons.inj (hcancels.unique hb)).1
            · have hdepth := hcancels.depth_eq
              have hnone : Step.left dots = [] := by
                refine List.filterMap_eq_nil_iff.2 fun a ha => ?_
                rw [hdots a ha]
              rw [Step.left_append, hnone, List.append_nil] at hdepth
              rw [Step.depth_append, hdepth]
              simp only [List.map_cons, List.map_nil, stepOf_dots, stepOf_dot, Step.depth, Step.left_here]
              omega
          · have hname := stepOf_name ha.1 hdot ha.2
            have hlast' : acc.getLast? ≠ some ['.'] := by
              cases acc with
              | nil => simp
              | cons b acc => exact hlast
            exact .inl ⟨acc, dots, rfl, .cancel hcancels ⟨a, hname⟩, hdots, hlast', hacc⟩
      by_cases hdot : t = ['.'] ∧ acc = []
      · obtain ⟨rfl, rfl⟩ := hdot
        exact .inl ⟨[], .here :: dots, rfl, .stay hcancels (by rintro ⟨⟩), List.forall_mem_cons.2 ⟨rfl, hdots⟩, by simp,
          by simp⟩
      · refine .inl ⟨t :: acc, dots, dirStep_push hup hdot, .stay hcancels (Kept.stepOf_ne ⟨ht, hup⟩), hdots, ?_,
          List.forall_mem_cons.2 ⟨⟨ht, hup⟩, hkept⟩⟩
        cases acc with
        | nil =>
          intro heq
          exact hdot ⟨Option.some.inj heq, rfl⟩
        | cons b acc => exact hlast
    · refine .inr ⟨Step.not_cancels_snoc hnot, ?_⟩
      rcases hrun with ⟨e, he⟩ | ⟨acc, hacc, hkept, hdepth⟩
      · exact .inl ⟨e, foldlM_snoc_error he⟩
      rw [foldlM_snoc hacc, Step.depth_append]
      by_cases hup : t = ['.', '.']
      · subst hup
        cases acc with
        | nil => exact .inl ⟨.exit, rfl⟩
        | cons a acc =>
          refine .inr ⟨acc, rfl, (List.forall_mem_cons.1 hkept).2, ?_⟩
          have hle : (Step.left ((a :: acc).map stepOf)).length ≤ (Step.left (acc.map stepOf)).length + 1 := by
            rw [List.map_cons]
            cases stepOf a <;> simp
          simp only [List.map_cons, List.map_nil, stepOf_dots, Step.depth]
          omega
      by_cases hdot : t = ['.'] ∧ acc = []
      · obtain ⟨rfl, rfl⟩ := hdot
        exact .inr ⟨[], rfl, by simp, by simpa [Step.depth, stepOf_dot] using hdepth⟩
      · refine .inr ⟨t :: acc, dirStep_push hup hdot, List.forall_mem_cons.2 ⟨⟨ht, hup⟩, hkept⟩, ?_⟩
        rw [List.map_cons, List.map_cons, List.map_nil]
        by_cases hd : t = ['.']
        · subst hd
          simpa [Step.depth, stepOf_dot] using hdepth
        · rw [stepOf_name ht hd hup]
          simp only [Step.depth, Step.left_down, List.length_cons]
          omega

/-! ## What comes out -/

/-- Components that `normalize` would leave as they are. -/
structure Normal (abs : Bool) (ts : List Str) : Prop where
  part : ∀ t ∈ ts, Part t
  dirs : ∀ t ∈ ts.dropLast, t ≠ ['.', '.']
  first : abs = false → ts.dropLast.head? ≠ some ['.']
  nonempty : abs = true → ts ≠ []

theorem foldlM_keep {abs : Bool} {ts : List Str} (hdirs : ∀ t ∈ ts, t ≠ ['.', '.'])
    (hfirst : abs = false → ts.head? ≠ some ['.']) : ts.foldlM dirStep (start abs) = .ok (ts.reverse ++ start abs) := by
  induction ts using List.reverseRecOn with
  | nil => rfl
  | append_singleton ts t ih =>
    have hkeep := ih (fun t ht => hdirs t (List.mem_append_left _ ht)) fun habs heq => by
      refine hfirst habs ?_
      rw [List.head?_append, heq]
      rfl
    rw [foldlM_snoc hkeep, dirStep_push (hdirs t (by simp)), List.reverse_append]
    · rfl
    · rintro ⟨rfl, hnil⟩
      obtain ⟨hts, habs⟩ := List.append_eq_nil_iff.1 hnil
      cases abs with
      | true => cases habs
      | false =>
        refine hfirst rfl ?_
        rw [List.reverse_eq_nil_iff.1 hts]
        rfl

theorem join_start {abs : Bool} {ts : List Str} (h : abs = true → ts ≠ []) :
    ['/'].intercalate ((start abs).reverse ++ ts) = pathText abs ts := by
  cases abs with
  | false => rfl
  | true =>
    obtain ⟨t, ts, rfl⟩ := List.exists_cons_of_ne_nil (h rfl)
    rfl

theorem normalizePath_pathText {abs : Bool} {ts : List Str} (h : Normal abs ts) :
    normalizePath (pathText abs ts) = .ok (pathText abs ts) := by
  rw [normalizePath_eq, isAbsolute_pathText h.part, partsOf_pathText h.part, foldlM_keep h.dirs h.first]
  change Except.ok _ = _
  rw [← List.append_assoc, List.reverse_append]
  rcases List.eq_nil_or_concat' ts with rfl | ⟨front, last, rfl⟩
  · rw [← join_start h.nonempty]
    simp
  · rw [← join_start h.nonempty, List.dropLast_concat, List.getLast?_concat]
    simp

theorem location_pathText {abs : Bool} {ts : List Str} (h : ∀ t ∈ ts, Part t) (place : List Str) :
    location place (pathText abs ts) = Step.walk (if abs then [] else place) (ts.map stepOf) := by
  rw [location_eq, isAbsolute_pathText h, partsOf_pathText h]
  rcases List.eq_nil_or_concat' ts with rfl | ⟨front, last, rfl⟩
  · rfl
  · rw [List.dropLast_concat, List.getLast?_concat]
    rfl

theorem part_result {acc : List Str} {last : Option Str} (hacc : ∀ t ∈ acc, Kept t) (hlast : ∀ t, last = some t → Part t) :
    ∀ t ∈ (last.toList ++ acc).reverse, Part t := by
  intro t ht
  rcases List.mem_append.1 (List.mem_reverse.1 ht) with ht | ht
  · exact hlast t (Option.mem_toList.1 ht)
  · exact (hacc t ht).1

/-- The components of the normalised path: what the accumulator holds, and the last component. -/
theorem normal_of_kept {abs : Bool} {acc : List Str} {last : Option Str} (hacc : ∀ t ∈ acc, Kept t)
    (hlast : ∀ t, last = some t → Part t) (hfirst : abs = false → acc.getLast? ≠ some ['.'])
    (hne : abs = true → last.toList ++ acc ≠ []) : Normal abs (last.toList ++ acc).reverse where
  part := part_result hacc hlast
  dirs t ht := by
    have hmem : t ∈ acc := by
      cases last with
      | none => exact List.mem_reverse.1 (List.dropLast_subset _ ht)
      | some l =>
        rw [Option.toList_some, List.singleton_append, List.reverse_cons, List.dropLast_concat] at ht
        exact List.mem_reverse.1 ht
    exact (hacc t hmem).2
  first habs heq := by
    refine hfirst habs ?_
    rw [← List.head?_reverse]
    cases last with
    | some l =>
      rw [Option.toList_some, List.singleton_append, List.reverse_cons, List.dropLast_concat] at heq
      exact heq
    | none =>
      change acc.reverse.dropLast.head? = some ['.'] at heq
      cases hrev : acc.reverse with
      | nil =>
        rw [hrev] at heq
        cases heq
      | cons t ts =>
        rw [hrev] at heq
        cases ts with
        | nil => cases heq
        | cons t' ts => exact heq
  nonempty habs heq := hne habs (List.reverse_eq_nil_iff.1 heq)

theorem walk_result {acc : List Str} (hacc : ∀ t ∈ acc, Kept t) (last : Option Str) (place : List Str) :
    Step.walk place ((last.toList ++ acc).reverse.map stepOf) =
      Step.walk (Step.left (acc.map stepOf) ++ place) (last.toList.map stepOf) := by
  rw [List.reverse_append, List.map_append, Step.walk_append, walk_kept hacc]
  cases last <;> rfl

/-! ## When the meaning is kept -/

theorem meaningful_iff_relative {path : Str} (habs : isAbsolute path = false) :
    Meaningful path ↔ RelativeCancels (partsOf path).1 := by
  obtain ⟨hdirs, hlast⟩ := partsOf_part path
  have heq := normalizePath_eq path
  rw [habs, start_false] at heq
  rcases relative_run hdirs with ⟨acc, dots, hrun, hcancels, hdots, hfirst, hkept⟩ | ⟨hnot, hrun⟩
  · refine ⟨fun _ => ⟨_, hcancels⟩, fun _ => ?_⟩
    have hnormal := @normal_of_kept false _ _ hkept hlast (fun _ => hfirst) nofun
    rw [hrun] at heq
    refine ⟨pathText false _, heq, fun place => ?_, ?_, normalizePath_pathText hnormal⟩
    · have hnone : Step.left dots = [] := by
        refine List.filterMap_eq_nil_iff.2 fun a ha => ?_
        rw [hdots a ha]
      rw [location_pathText hnormal.part, location_eq, habs, List.map_append, Step.walk_append]
      have hwalk := hcancels.walk_eq place
      rw [Step.left_append, hnone, List.append_nil] at hwalk
      exact (walk_result hkept _ place).trans (congrArg (Step.walk · _) hwalk.symm)
    · rw [isAbsolute_pathText hnormal.part, habs]
  · refine ⟨?_, fun h => absurd h hnot⟩
    rintro ⟨p, hp, hloc, hpabs, hidem⟩
    exfalso
    rcases hrun with ⟨e, he⟩ | ⟨acc, hrun, hkept, hdepth⟩
    · rw [heq, he] at hp
      cases hp
    rw [heq, hrun] at hp
    obtain rfl : pathText false ((partsOf path).2.toList ++ acc).reverse = p := Except.ok.inj hp
    have hpart := part_result hkept hlast
    -- from a directory that is deep enough the two lead to places of different depth
    let steps := (partsOf path).1.map stepOf ++ (partsOf path).2.toList.map stepOf
    let place : List Str := List.replicate steps.length []
    have hplace := hloc place
    rw [location_pathText hpart, location_eq, habs, List.map_append] at hplace
    have hresult := (walk_result hkept (partsOf path).2 place).symm.trans hplace
    have hlength := congrArg (fun l : List Str => (l.length : Int)) hresult
    have hdeep : steps.length = place.length := List.length_replicate.symm
    simp only [steps, List.length_append] at hdeep
    simp only [Bool.false_eq_true, if_false] at hlength
    rw [Step.length_walk (by rw [List.length_append]; omega), Step.length_walk (by rw [List.length_append]; omega),
      Step.depth_append, List.length_append] at hlength
    omega

/-- A last component leads from two places to one only if they are one, or if it leads up. -/
theorem walk_last_iff (d t : List Str) (last : Option Str) :
    Step.walk d (last.toList.map stepOf) = Step.walk t (last.toList.map stepOf) ↔
      d = t ∨ last = some ['.', '.'] ∧ d.tail = t.tail := by
  cases last with
  | none => simp
  | some l =>
    change Step.move d (stepOf l) = Step.move t (stepOf l) ↔ _
    by_cases hdots : l = ['.', '.']
    · subst hdots
      rw [stepOf_dots, Step.move, Step.move]
      constructor
      · intro htail
        exact .inr ⟨rfl, htail⟩
      · rintro (rfl | ⟨-, htail⟩)
        · rfl
        · exact htail
    · have hne : some l ≠ some ['.', '.'] := fun h => hdots (Option.some.inj h)
      have hiff : Step.move d (stepOf l) = Step.move t (stepOf l) ↔ d = t := by
        cases hstep : stepOf l with
        | here => rfl
        | up => exact absurd (stepOf_eq_up hstep) hdots
        | down name => simp [Step.move]
      rw [hiff]
      simp [hdots]

section

variable {d acc : List Str} {last : Option Str}
variable (hcancels : Step.Cancels Step.Anything (d.map stepOf) (acc.map stepOf)) (hkept : ∀ t ∈ acc, Kept t)

include hcancels in
/-- What `AbsoluteCancels` says of what the accumulator holds: something is left, and it leads where the path leads. -/
theorem absoluteCancels_iff : AbsoluteCancels d last ↔ last.toList ++ acc ≠ [] ∧
    Step.walk (Step.left (acc.map stepOf)) (last.toList.map stepOf) =
      Step.walk (Step.walk [] (d.map stepOf)) (last.toList.map stepOf) := by
  rw [walk_last_iff, Step.left_eq_walk_iff hcancels, Step.tail_eq_walk_iff hcancels, AbsoluteCancels]
  constructor
  · rintro ⟨⟨s, hs, hne⟩, hsynced⟩
    constructor
    · intro hnil
      obtain ⟨hnone, hacc⟩ := List.append_eq_nil_iff.1 hnil
      obtain rfl := hs.unique hcancels
      exact hne (Option.toList_eq_nil_iff.1 hnone) (by rw [hacc]; rfl)
    · exact hsynced.imp_right fun ⟨hdots, hw⟩ => ⟨hdots, .inr hw⟩
  · rintro ⟨hne, hsynced⟩
    constructor
    · refine ⟨_, hcancels, fun hnone hmap => hne ?_⟩
      rw [hnone, List.map_eq_nil_iff.1 hmap]
      rfl
    · rcases hsynced with hsynced | ⟨hdots, hsynced | hw⟩
      · exact .inl hsynced
      · exact .inl hsynced
      · exact .inr ⟨hdots, hw⟩

include hkept in
theorem location_kept {path : Str} (habs : isAbsolute path = true) (hparts : partsOf path = (d, last))
    (hpart : ∀ t ∈ (last.toList ++ acc).reverse, Part t) (place : List Str) :
    location place (pathText true (last.toList ++ acc).reverse) = location place path ↔
      Step.walk (Step.left (acc.map stepOf)) (last.toList.map stepOf) =
        Step.walk (Step.walk [] (d.map stepOf)) (last.toList.map stepOf) := by
  have hwalk := walk_result hkept last []
  rw [List.append_nil] at hwalk
  have horiginal : location place path = Step.walk (Step.walk [] (d.map stepOf)) (last.toList.map stepOf) := by
    rw [location_eq, habs, hparts, List.map_append, Step.walk_append]
    rfl
  rw [horiginal, location_pathText hpart, ← hwalk]
  rfl

include hcancels hkept in
theorem meaningful_kept {path : Str} (habs : isAbsolute path = true) (hparts : partsOf path = (d, last))
    (hlast : ∀ t, last = some t → Part t) (hrun : d.foldlM dirStep [[]] = .ok (acc ++ [[]])) :
    Meaningful path ↔ AbsoluteCancels d last := by
  have htext : normalizePath path = .ok (['/'].intercalate ([] :: (last.toList ++ acc).reverse)) := by
    rw [normalizePath_eq, habs, start_true, hparts, hrun]
    change Except.ok _ = _
    rw [← List.append_assoc, List.reverse_append]
    rfl
  have hjoin (hne : last.toList ++ acc ≠ []) :
      ['/'].intercalate ([] :: (last.toList ++ acc).reverse) = pathText true (last.toList ++ acc).reverse :=
    @join_start true _ fun _ hnil => hne (List.reverse_eq_nil_iff.1 hnil)
  have hnormal (hne : last.toList ++ acc ≠ []) : Normal true (last.toList ++ acc).reverse :=
    normal_of_kept hkept hlast nofun fun _ => hne
  rw [absoluteCancels_iff hcancels]
  constructor
  · rintro ⟨p, hp, hloc, hpabs, -⟩
    obtain rfl := Except.ok.inj (htext.symm.trans hp)
    have hne : last.toList ++ acc ≠ [] := by
      intro hnil
      rw [hnil, habs] at hpabs
      cases hpabs
    rw [hjoin hne] at hloc
    exact ⟨hne, (location_kept hkept habs hparts (hnormal hne).part []).1 (hloc [])⟩
  · rintro ⟨hne, hwalk⟩
    rw [hjoin hne] at htext
    refine ⟨_, htext, fun place => (location_kept hkept habs hparts (hnormal hne).part place).2 hwalk, ?_,
      normalizePath_pathText (hnormal hne)⟩
    rw [isAbsolute_pathText (hnormal hne).part, habs]

end

theorem meaningful_iff_absolute {path : Str} (habs : isAbsolute path = true) :
    Meaningful path ↔ AbsoluteCancels (partsOf path).1 (partsOf path).2 := by
  obtain ⟨hdirs, hlast⟩ := partsOf_part path
  rcases absolute_run hdirs with ⟨acc, hrun, hcancels, hkept⟩ | ⟨hnot, hrun⟩
  · exact meaningful_kept hcancels hkept habs rfl hlast hrun
  · refine ⟨?_, fun h => ?_⟩
    · rintro ⟨p, hp, hloc, hpabs, hidem⟩
      exfalso
      have heq := normalizePath_eq path
      rw [habs, start_true] at heq
      rcases hrun with ⟨e, he⟩ | ⟨acc, hrun, hkept⟩
      · rw [heq, he] at hp
        cases hp
      -- without the root the text of the components is relative
      rw [heq, hrun] at hp
      obtain rfl : pathText false ((partsOf path).2.toList ++ acc).reverse = p := Except.ok.inj hp
      rw [isAbsolute_pathText (part_result hkept hlast), habs] at hpabs
      cases hpabs
    · obtain ⟨⟨s, hs, -⟩, -⟩ := h
      exact absurd ⟨s, hs⟩ hnot

end EvilHaxe.Path
