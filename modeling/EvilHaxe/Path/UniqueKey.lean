/-
When the keys of `UniqueKey` are unique. The scanner of `get_full_path` stops exactly at the components that are not
proper, and the fold over the components finds what the path denotes.
-/
import EvilHaxe.Path.FullPath

namespace EvilHaxe.Path

open Lib

/-! ## Splitting at slashes -/

/-- A path is one component, or a component, a slash and the rest. -/
theorem component_cases (cs : Str) : '/' ∉ cs ∨ ∃ c rest, '/' ∉ c ∧ cs = c ++ '/' :: rest := by
  by_cases h : '/' ∈ cs
  · obtain ⟨c, rest, hcs, hc⟩ := List.eq_append_cons_of_mem h
    exact .inr ⟨c, rest, hc, hcs⟩
  · exact .inl h

theorem splitOn_component {c : Str} (hc : '/' ∉ c) : c.splitOn '/' = [c] := by
  have h : (['/'].intercalate [c]).splitOn '/' = [c] := List.splitOn_intercalate '/' (by simpa using hc) (by simp)
  simpa using h

theorem splitOn_cons_component {c : Str} (hc : '/' ∉ c) (rest : Str) :
    (c ++ '/' :: rest).splitOn '/' = c :: rest.splitOn '/' := List.splitOn_append_cons_self_of_not_mem hc rest

theorem skipPastSlash_component : ∀ {c : Str}, '/' ∉ c → skipPastSlash c = []
  | [], _ => rfl
  | a :: c, h => by
    rw [List.mem_cons, not_or] at h
    rw [skipPastSlash, if_neg (Ne.symm h.1), skipPastSlash_component h.2]

theorem skipPastSlash_cons_component : ∀ {c : Str}, '/' ∉ c → ∀ rest, skipPastSlash (c ++ '/' :: rest) = rest
  | [], _, _ => rfl
  | a :: c, h, rest => by
    rw [List.mem_cons, not_or] at h
    rw [List.cons_append, skipPastSlash, if_neg (Ne.symm h.1), skipPastSlash_cons_component h.2]

/-! ## The scanner -/

set_option linter.auxLemma false in
theorem hasHere_other {a : Char} (hdot : a ≠ '.') (hslash : a ≠ '/') (first : Bool) (cs : Str) :
    hasHere first (a :: cs) = false := by
  -- beside all of Mathlib, Lean finds no equations for the cases of this `match`
  delta hasHere hasHere.match_1
  exact (dif_neg hdot).trans (dif_neg hslash)

theorem hasHere_dot (first : Bool) (cs : Str) : hasHere first ('.' :: cs) =
    match cs with
    | [] => true
    | [a] => a = '/' || a = '.'
    | a :: b :: _ => a = '.' && b = '/' || a = '/' := by
  match cs with
  | [] => rfl
  | [_] => rfl
  | _ :: _ :: _ => rfl

theorem hasHere_component {c : Str} (hc : '/' ∉ c) (hne : c ≠ []) : hasHere false c = false ↔ Proper c := by
  unfold Proper
  cases c with
  | nil => exact absurd rfl hne
  | cons a c =>
    rw [List.mem_cons, not_or] at hc
    by_cases ha : a = '.'
    · subst ha
      match c, hc.2 with
      | [], _ => simp [hasHere_dot]
      | [b], hb =>
        have hb : b ≠ '/' := fun h => hb (by simp [h])
        simp [hasHere_dot, hb, Ne.symm hb]
      | b :: d :: rest, hrest =>
        have hb : b ≠ '/' := fun h => hrest (by simp [h])
        have hd : d ≠ '/' := fun h => hrest (by simp [h])
        have hnot : '/' ∉ rest := fun h => hrest (by simp [h])
        simp [hasHere_dot, hb, hd, hnot, Ne.symm hb, Ne.symm hd]
    · rw [hasHere_other ha (Ne.symm hc.1)]
      simp [ha, hc.1, hc.2]

theorem hasHere_cons_component {c : Str} (hc : '/' ∉ c) (rest : Str) :
    hasHere false (c ++ '/' :: rest) = false ↔ Proper c := by
  unfold Proper
  cases c with
  | nil =>
    have hslash : hasHere false ('/' :: rest) = true := rfl
    simp [hslash]
  | cons a c =>
    rw [List.mem_cons, not_or] at hc
    by_cases ha : a = '.'
    · subst ha
      match c, hc.2 with
      | [], _ => cases rest <;> simp [hasHere_dot]
      | [b], hb =>
        have hb : b ≠ '/' := fun h => hb (by simp [h])
        simp [hasHere_dot, hb, Ne.symm hb]
      | b :: d :: more, hmore =>
        have hb : b ≠ '/' := fun h => hmore (by simp [h])
        have hd : d ≠ '/' := fun h => hmore (by simp [h])
        have hnot : '/' ∉ more := fun h => hmore (by simp [h])
        simp [hasHere_dot, hb, hd, hnot, Ne.symm hb, Ne.symm hd]
    · rw [List.cons_append, hasHere_other ha (Ne.symm hc.1)]
      simp [ha, hc.1, hc.2]

theorem scan_nil (first : Bool) : hasDotsOrDoubleSlash first [] = false := by
  rw [hasDotsOrDoubleSlash, dif_pos rfl]

theorem scan_eq {first : Bool} {cs : Str} (h : cs ≠ []) :
    hasDotsOrDoubleSlash first cs = (hasHere first cs || hasDotsOrDoubleSlash false (skipPastSlash cs)) := by
  rw [hasDotsOrDoubleSlash, dif_neg h]
  cases hasHere first cs <;> rfl

/-- Behind a slash, and without one at the end, the scanner finds nothing exactly if every component is proper. -/
theorem scan_spec (cs : Str) (hne : cs ≠ []) :
    cs.getLast? ≠ some '/' ∧ hasDotsOrDoubleSlash false cs = false ↔ ∀ part ∈ cs.splitOn '/', Proper part := by
  rw [scan_eq hne, Bool.or_eq_false_iff]
  rcases component_cases cs with hcs | ⟨c, rest, hc, heq⟩
  · have hlast : cs.getLast? ≠ some '/' := fun h => hcs (List.mem_of_getLast? h)
    rw [splitOn_component hcs, skipPastSlash_component hcs, scan_nil, hasHere_component hcs hne]
    simpa using fun _ => hlast
  · subst heq
    rw [splitOn_cons_component hc, skipPastSlash_cons_component hc, hasHere_cons_component hc, List.forall_mem_cons]
    cases rest with
    | nil =>
      -- a slash at the end leaves an empty component, which the scanner does not see
      have hempty : ¬ Proper [] := fun h => h.1 rfl
      simp [hempty]
    | cons a rest =>
      have ih := scan_spec (a :: rest) (List.cons_ne_nil a rest)
      have hlast : (c ++ '/' :: a :: rest).getLast? = (a :: rest).getLast? := by
        rw [List.getLast?_append_of_ne_nil _ (List.cons_ne_nil _ _), List.getLast?_cons_cons]
      rw [hlast, ← ih]
      tauto
termination_by cs.length
decreasing_by
  subst_vars
  simp only [List.length_append, List.length_cons]
  omega

theorem scan_relative {f : Str} (hrel : f.head? ≠ some '/') :
    hasDotsOrDoubleSlash true f = hasDotsOrDoubleSlash false f := by
  cases f with
  | nil => rw [scan_nil, scan_nil]
  | cons a f =>
    have ha : a ≠ '/' := fun h => hrel (by simp [h])
    have hhere : hasHere true (a :: f) = hasHere false (a :: f) := by
      by_cases hdot : a = '.'
      · subst hdot
        rw [hasHere_dot, hasHere_dot]
      · rw [hasHere_other hdot ha, hasHere_other hdot ha]
    rw [scan_eq (List.cons_ne_nil a f), scan_eq (List.cons_ne_nil a f), hhere]

theorem scan_absolute (f : Str) : hasDotsOrDoubleSlash true ('/' :: f) = hasDotsOrDoubleSlash false f := by
  rw [scan_eq (List.cons_ne_nil _ f)]
  rfl

/-! ## The fold -/

theorem keepPart_eq (state : List Str × Nat) (current : Str) : keepPart state current = Step.back state (stepOf current) := by
  obtain ⟨acc, skip⟩ := state
  by_cases hdots : current = ['.', '.']
  · simp [keepPart, stepOf, Step.back, hdots]
  by_cases hhere : current = ['.'] ∨ current = []
  · simp [keepPart, stepOf, Step.back, hdots, hhere]
  · cases skip <;> simp [keepPart, stepOf, Step.back, hdots, hhere]

/-- The fold over the components finds the place that they lead to from the root. -/
theorem foldl_keepPart (parts : List Str) :
    (parts.reverse.foldl keepPart ([], 0)).1 = (Step.walk [] (parts.map stepOf)).reverse := by
  have hfold : parts.reverse.foldl keepPart ([], 0) = (parts.map stepOf).reverse.foldl Step.back ([], 0) := by
    rw [← List.map_reverse, List.foldl_map]
    exact congrArg (List.foldl · ([], 0) parts.reverse) (funext fun s => funext fun c => keepPart_eq s c)
  rw [hfold, Step.foldr_back, List.drop_zero, List.append_nil]

theorem stepOf_proper {part : Str} (h : Proper part) : stepOf part = .down part := by
  obtain ⟨hempty, hdot, hdots, -⟩ := h
  rw [stepOf, if_neg hdots, if_neg (by simp [hdot, hempty])]

theorem map_stepOf {parts : List Str} (h : ∀ part ∈ parts, Proper part) : parts.map stepOf = parts.map .down :=
  List.map_congr_left fun part hpart => stepOf_proper (h part hpart)

theorem proper_of_stepOf {part name : Str} (hslash : '/' ∉ part) (h : stepOf part = .down name) : Proper name := by
  unfold stepOf at h
  split at h
  · cases h
  next hdots =>
    split at h
    · cases h
    next hrest =>
      cases h
      rw [not_or] at hrest
      exact ⟨hrest.2, hrest.1, hdots, hslash⟩

theorem splitOn_intercalate_proper {parts : List Str} (h : ∀ part ∈ parts, Proper part) (hne : parts ≠ []) :
    (['/'].intercalate parts).splitOn '/' = parts :=
  List.splitOn_intercalate '/' (fun part hpart => (h part hpart).2.2.2) hne

/-! ## Directories and what is denoted from them -/

theorem walk_text (d : Directory) : Step.walk [] (stepsOf d.text) = d.parts.reverse := by
  have hsplit : d.text.splitOn '/' = [] :: (['/'].intercalate d.parts).splitOn '/' :=
    splitOn_cons_component (c := []) List.not_mem_nil _
  rw [stepsOf, hsplit]
  by_cases hparts : d.parts = []
  · rw [hparts]
    rfl
  · rw [splitOn_intercalate_proper d.proper hparts, List.map_cons, map_stepOf d.proper, Step.walk_cons]
    have h := Step.walk_down (α := Str) [] d.parts
    rwa [List.append_nil] at h

theorem proper_denotes (d : Directory) (f : Str) : ∀ part ∈ denotes d f, Proper part := by
  intro part hpart
  refine Step.walk_mem (P := Proper) (fun a ha => ?_) (fun a (ha : .down a ∈ stepsOf f) => ?_) part
    (List.mem_reverse.1 hpart)
  · split at ha
    · cases ha
    · exact d.proper a (List.mem_reverse.1 ha)
  · obtain ⟨c, hc, hstep⟩ := List.mem_map.1 ha
    exact proper_of_stepOf (not_mem_of_mem_splitOn hc) hstep

theorem clean_fullText {parts : List Str} (h : ∀ part ∈ parts, Proper part) : Clean (fullText parts) := by
  refine ⟨_, rfl, ?_⟩
  by_cases hparts : parts = []
  · exact .inl (by rw [hparts]; rfl)
  · rw [splitOn_intercalate_proper h hparts]
    exact .inr h

/-- A path of proper components leads down from the directory, or from the root. -/
theorem denotes_proper {d : Directory} {f : Str} (hrel : f.head? ≠ some '/') (h : ∀ part ∈ f.splitOn '/', Proper part) :
    denotes d f = d.parts ++ f.splitOn '/' := by
  rw [denotes, if_neg hrel, stepsOf, map_stepOf h, Step.walk_down, List.reverse_append, List.reverse_reverse,
    List.reverse_reverse]

theorem denotes_absolute_proper {d : Directory} {f : Str} (h : ∀ part ∈ f.splitOn '/', Proper part) :
    denotes d ('/' :: f) = f.splitOn '/' := by
  have hsplit : ('/' :: f).splitOn '/' = [] :: f.splitOn '/' := splitOn_cons_component (c := []) List.not_mem_nil f
  have hhead : ('/' :: f).head? = some '/' := rfl
  rw [denotes, if_pos hhead, stepsOf, hsplit, List.map_cons, map_stepOf h, Step.walk_cons]
  have hdown := Step.walk_down (α := Str) [] (f.splitOn '/')
  rw [List.append_nil] at hdown
  exact (congrArg List.reverse hdown).trans (List.reverse_reverse _)

/-! ## The full path -/

theorem fullText_append {parts : List Str} (hne : parts ≠ []) (f : Str) :
    fullText parts ++ ['/'] ++ f = fullText (parts ++ f.splitOn '/') := by
  obtain ⟨first, others, hsplit⟩ := List.exists_cons_of_ne_nil (List.splitOn_ne_nil '/' f)
  have hf : ['/'].intercalate (f.splitOn '/') = f := List.intercalate_splitOn '/'
  rw [hsplit] at hf ⊢
  rw [fullText, fullText, intercalate_append_cons, hf, List.cons_append, List.cons_append, intercalate_append_sep hne]

/-- The path that the scanner hands on is absolute, and denotes from the root what the path denotes. -/
theorem walk_absolutePath (d : Directory) {f : Str} (hne : f ≠ []) :
    Step.walk [] (stepsOf (if f.head? = some '/' then f else if f = [] then d.text else d.text ++ ['/'] ++ f)) =
      (denotes d f).reverse := by
  rw [denotes, List.reverse_reverse]
  by_cases habs : f.head? = some '/'
  · rw [if_pos habs, if_pos habs]
  · rw [if_neg habs, if_neg hne, if_neg habs, List.append_assoc, List.singleton_append, stepsOf,
      List.splitOn_append_cons_self, List.map_append, Step.walk_append]
    exact congrArg (Step.walk · _) (walk_text d)

theorem getFullPath_doubleSlash {d : Directory} {f : Str} (h : DoubleSlash d f) : getFullPath d.text f = '/' :: '/' :: f := by
  obtain ⟨hroot, hne, hrel, hproper⟩ := h
  obtain ⟨hlast, hscan⟩ := (scan_spec f hne).2 hproper
  have htext : d.text = ['/'] := by
    rw [Directory.text, hroot]
    rfl
  rw [getFullPath]
  simp only [scan_relative hrel, hscan, hlast, Bool.false_eq_true, not_false_eq_true, and_self, if_true, if_neg hrel,
    if_neg hne, htext]
  rfl

/-- Outside the root directory, and for paths that are not that plain, the full path is what the path denotes. -/
theorem getFullPath_eq {d : Directory} {f : Str} (h : ¬ DoubleSlash d f) :
    getFullPath d.text f = fullText (denotes d f) := by
  by_cases hne : f = []
  · subst hne
    have hdenotes : denotes d [] = d.parts := List.reverse_reverse d.parts
    rw [hdenotes, getFullPath]
    simp [scan_nil, Directory.text]
  rw [getFullPath]
  by_cases hfast : ¬ f.getLast? = some '/' ∧ ¬ hasDotsOrDoubleSlash true f
  · simp only [if_pos hfast]
    rw [Bool.not_eq_true] at hfast
    by_cases habs : f.head? = some '/'
    · obtain ⟨rest, rfl⟩ : ∃ rest, f = '/' :: rest := by
        cases f with
        | nil => cases habs
        | cons a rest => exact ⟨rest, by rw [Option.some.inj habs]⟩
      have hrest : rest ≠ [] := by
        rintro rfl
        exact hfast.1 rfl
      have hlast : ('/' :: rest).getLast? = rest.getLast? := by
        obtain ⟨a, rest, rfl⟩ := List.exists_cons_of_ne_nil hrest
        rfl
      rw [scan_absolute, hlast] at hfast
      have hproper := (scan_spec rest hrest).1 hfast
      rw [if_pos habs, denotes_absolute_proper hproper, fullText, List.intercalate_splitOn]
    · rw [scan_relative habs] at hfast
      have hproper := (scan_spec f hne).1 hfast
      have hparts : d.parts ≠ [] := fun hroot => h ⟨hroot, hne, habs, hproper⟩
      rw [if_neg habs, if_neg hne, denotes_proper habs hproper, Directory.text, fullText_append hparts]
  · simp only [if_neg hfast]
    rw [foldl_keepPart]
    exact congrArg fullText ((congrArg List.reverse (walk_absolutePath d hne)).trans (List.reverse_reverse _))

theorem not_clean_doubleSlash {f : Str} : ¬ Clean ('/' :: '/' :: f) := by
  rintro ⟨rest, heq, hnil | hproper⟩
  · cases heq
    cases hnil
  · cases heq
    have hsplit : ('/' :: f).splitOn '/' = [] :: f.splitOn '/' := splitOn_cons_component (c := []) List.not_mem_nil f
    rw [hsplit] at hproper
    exact (hproper [] List.mem_cons_self).1 rfl

/-- From the directory `d`, two paths that denote the same have the same key, and the full paths have proper components
only, exactly if neither of them is a plain relative path while `d` is the root. -/
theorem create_unique_iff (d : Directory) (f g : Str) :
    ((denotes d f = denotes d g → create d.text f = create d.text g) ∧ Clean (getFullPath d.text f) ∧
      Clean (getFullPath d.text g)) ↔ ¬ DoubleSlash d f ∧ ¬ DoubleSlash d g := by
  constructor
  · rintro ⟨-, hf, hg⟩
    constructor
    · intro h
      rw [getFullPath_doubleSlash h] at hf
      exact not_clean_doubleSlash hf
    · intro h
      rw [getFullPath_doubleSlash h] at hg
      exact not_clean_doubleSlash hg
  · rintro ⟨hf, hg⟩
    rw [create, create, getFullPath_eq hf, getFullPath_eq hg]
    exact ⟨congrArg fullText, clean_fullText (proper_denotes d f), clean_fullText (proper_denotes d g)⟩

/-- In the root directory `a` and `/a` denote the same file and have different keys. -/
theorem create_root_differs :
    ¬ ∀ (d : Directory) (f g : Str), denotes d f = denotes d g → create d.text f = create d.text g := by
  intro h
  have hd : DoubleSlash ⟨[], nofun⟩ ['a'] := by
    refine ⟨rfl, by decide, by decide, ?_⟩
    rw [splitOn_component (by decide)]
    simp [Proper]
  have hg : ¬ DoubleSlash ⟨[], nofun⟩ ['/', 'a'] := fun hd => hd.2.2.1 rfl
  have hkeys := h ⟨[], nofun⟩ ['a'] ['/', 'a'] (by decide)
  rw [create, create, getFullPath_doubleSlash hd, getFullPath_eq hg] at hkeys
  revert hkeys
  decide

end EvilHaxe.Path
