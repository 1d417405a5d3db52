/-
How `full_split` takes a path apart and what `normalize` makes of the parts: a fold over the components that a separator
follows, and the last component behind it.
-/
import EvilHaxe.Path.NormalizePath

namespace EvilHaxe.Path

open Lib SplitResult

/-! ## The parts of a split -/

/-- Text that a component consists of. -/
def Part (t : Str) : Prop := t ≠ [] ∧ ∀ c ∈ t, isSep c = false

/-- Texts and delimiters in turn, a text first. -/
inductive Alternates : List SplitResult → Prop
  | nil : Alternates []
  | last {t : Str} (ht : Part t) : Alternates [.text t]
  | dir {t d : Str} {m : List SplitResult} (ht : Part t) (h : Alternates m) : Alternates (.text t :: .delim d :: m)

/-- The texts of a split. -/
def texts (m : List SplitResult) : List Str :=
  m.filterMap fun r => match r with
    | .text t => some t
    | .delim _ => none

/-- A split begins with its first component, or with a delimiter and then a component. -/
inductive Splits : Str → List SplitResult → Prop
  | relative {path : Str} {m : List SplitResult} (h : Alternates m) (habs : isAbsolute path = false) : Splits path m
  | absolute {path d : Str} {m : List SplitResult} (h : Alternates m) (habs : isAbsolute path = true) :
      Splits path (.delim d :: m)

theorem Splits.addDelim {path : Str} {m : List SplitResult} (h : Splits path m) {c : Char} (hc : isSep c = true) :
    Splits (c :: path) (addDelim c m) := by
  have habs : isAbsolute (c :: path) = true := hc
  cases h with
  | absolute h _ => exact .absolute h habs
  | relative h _ =>
    cases h with
    | nil => exact .absolute .nil habs
    | last ht => exact .absolute (.last ht) habs
    | dir ht h => exact .absolute (.dir ht h) habs

theorem Splits.addText {path : Str} {m : List SplitResult} (h : Splits path m) {c : Char} (hc : isSep c = false) :
    Splits (c :: path) (addText c m) := by
  have habs : isAbsolute (c :: path) = false := hc
  have hpart {t : Str} (ht : Part t) : Part (c :: t) := ⟨List.cons_ne_nil c t, List.forall_mem_cons.2 ⟨hc, ht.2⟩⟩
  have hone : Part [c] := ⟨List.cons_ne_nil c [], by simpa using hc⟩
  cases h with
  | absolute h _ => exact .relative (.dir hone h) habs
  | relative h _ =>
    cases h with
    | nil => exact .relative (.last hone) habs
    | last ht => exact .relative (.last (hpart ht)) habs
    | dir ht h => exact .relative (.dir (hpart ht) h) habs

theorem fullSplit_splits : ∀ path : Str, Splits path (fullSplit path)
  | [] => .relative .nil rfl
  | c :: cs => by
    have ih := fullSplit_splits cs
    rw [fullSplit]
    split
    next hc => exact ih.addDelim hc
    next hc => exact ih.addText (Bool.eq_false_iff.2 hc)

@[simp] theorem texts_addDelim (c : Char) (m : List SplitResult) : texts (addDelim c m) = texts m := by
  unfold addDelim
  split <;> rfl

/-- The text that a split begins with. -/
def firstText : List SplitResult → Str
  | .text t :: _ => t
  | _ => []

/-- The first text of a split is not empty. -/
theorem Splits.text_ne_nil {path t : Str} {m : List SplitResult} (h : Splits path (.text t :: m)) : t ≠ [] := by
  cases h with
  | relative h _ =>
    cases h with
    | last ht => exact ht.1
    | dir ht _ => exact ht.1

/-- Splitting at every separator finds the same texts, and empty ones between them. -/
theorem splitOnP_eq : ∀ path : Str, ((path.splitOnP isSep).filter (· ≠ []) = texts (fullSplit path) ∧
    ∃ rest, path.splitOnP isSep = firstText (fullSplit path) :: rest)
  | [] => ⟨rfl, [], rfl⟩
  | c :: cs => by
    obtain ⟨hfilter, rest, hhead⟩ := splitOnP_eq cs
    rw [fullSplit, List.splitOnP_cons_eq_if_modifyHead, hhead]
    rw [hhead] at hfilter
    by_cases hc : isSep c = true
    · rw [if_pos hc, if_pos hc, texts_addDelim, ← hfilter]
      refine ⟨rfl, firstText (fullSplit cs) :: rest, ?_⟩
      unfold addDelim
      split <;> rfl
    · rw [if_neg hc, if_neg hc, List.modifyHead_cons]
      have hsplits := fullSplit_splits cs
      cases hm : fullSplit cs with
      | nil =>
        rw [hm] at hfilter
        exact ⟨congrArg ([c] :: ·) hfilter, rest, rfl⟩
      | cons r m =>
        rw [hm] at hfilter hsplits
        cases r with
        | delim d => exact ⟨congrArg ([c] :: ·) hfilter, rest, rfl⟩
        | text t =>
          have hkeep : (t :: rest).filter (· ≠ []) = t :: rest.filter (· ≠ []) :=
            List.filter_cons_of_pos (by simpa using hsplits.text_ne_nil)
          have hrest : rest.filter (· ≠ []) = texts m := (List.cons.inj (hkeep.symm.trans hfilter)).2
          exact ⟨congrArg ((c :: t) :: ·) hrest, rest, rfl⟩

/-! ## Steps by texts -/

theorem walk_filter (place : List Str) (ts : List Str) :
    Step.walk place (ts.map stepOf) = Step.walk place ((ts.filter (· ≠ [])).map stepOf) := by
  induction ts generalizing place with
  | nil => rfl
  | cons t ts ih =>
    by_cases ht : t = []
    · subst ht
      rw [List.filter_cons_of_neg (by simp)]
      exact ih place
    · rw [List.filter_cons_of_pos (by simpa using ht)]
      exact ih _

theorem walk_steps (place : List Str) (path : Str) :
    Step.walk place (steps path) = Step.walk place ((texts (fullSplit path)).map stepOf) := by
  rw [steps, walk_filter, (splitOnP_eq path).1]

theorem Alternates.texts_eq {m : List SplitResult} (h : Alternates m) : texts m = (dirs m).1 ++ (dirs m).2.toList := by
  induction h with
  | nil => rfl
  | last _ => rfl
  | dir _ _ ih => exact congrArg _ ih

theorem Alternates.part {m : List SplitResult} (h : Alternates m) :
    (∀ t ∈ (dirs m).1, Part t) ∧ ∀ t, (dirs m).2 = some t → Part t := by
  induction h with
  | nil => exact ⟨nofun, nofun⟩
  | last ht => exact ⟨nofun, fun t heq => Option.some.inj heq ▸ ht⟩
  | dir ht _ ih => exact ⟨List.forall_mem_cons.2 ⟨ht, ih.1⟩, ih.2⟩

/-! ## The fold over the components -/

/-- What `normalize` does with a component that a separator follows. -/
def dirStep (acc : List Str) (t : Str) : Except Raised (List Str) :=
  if t = ['.'] ∧ acc = [] then .ok []
  else if t = ['.', '.'] then
    match acc with
    | [] => .error .exit
    | _ :: acc => .ok acc
  else .ok (t :: acc)

theorem normalize_eq {m : List SplitResult} (h : Alternates m) (acc : List Str) :
    normalize acc m = (do
      let acc ← (dirs m).1.foldlM dirStep acc
      .ok ((dirs m).2.toList ++ acc).reverse) := by
  induction h generalizing acc with
  | nil => rfl
  | last _ => rfl
  | dir _ _ ih =>
    rw [normalize.eq_def, dirs, List.foldlM_cons, dirStep.eq_def]
    dsimp only
    split
    next hdot => exact hdot.2 ▸ ih []
    next =>
      split
      next =>
        cases acc with
        | nil => rfl
        | cons a acc => exact ih acc
      next => exact ih _

/-- What is on the accumulator in front of the first component. -/
def start (abs : Bool) : List Str := if abs then [[]] else []

@[simp] theorem start_true : start true = [[]] := rfl

@[simp] theorem start_false : start false = [] := rfl

/-- A path falls into components whose fold `normalize` is. -/
theorem partsOf_spec (path : Str) : ∃ m, Alternates m ∧ partsOf path = dirs m ∧ texts (fullSplit path) = texts m ∧
    normalize [] (fullSplit path) = normalize (start (isAbsolute path)) m := by
  have hsplits := fullSplit_splits path
  unfold partsOf
  generalize fullSplit path = split at hsplits
  cases hsplits with
  | relative h habs =>
    refine ⟨split, h, ?_, rfl, by rw [habs]; rfl⟩
    cases h <;> rfl
  | @absolute _ m h habs => exact ⟨m, h, rfl, rfl, by rw [habs]; rfl⟩

theorem normalizePath_eq (path : Str) :
    normalizePath path = (do
      let acc ← (partsOf path).1.foldlM dirStep (start (isAbsolute path))
      .ok (['/'].intercalate ((partsOf path).2.toList ++ acc).reverse)) := by
  obtain ⟨m, halt, hparts, -, hnorm⟩ := partsOf_spec path
  rw [normalizePath, hnorm, normalize_eq halt, hparts, bind_assoc]
  rfl

theorem partsOf_part (path : Str) :
    (∀ t ∈ (partsOf path).1, Part t) ∧ ∀ t, (partsOf path).2 = some t → Part t := by
  obtain ⟨m, halt, hparts, -⟩ := partsOf_spec path
  rw [hparts]
  exact halt.part

/-- Where a path leads, by its components. -/
theorem location_eq (place : List Str) (path : Str) :
    location place path = Step.walk (if isAbsolute path then [] else place)
      (((partsOf path).1 ++ (partsOf path).2.toList).map stepOf) := by
  obtain ⟨m, halt, hparts, htexts, -⟩ := partsOf_spec path
  rw [location, walk_steps, htexts, halt.texts_eq, hparts]

/-! ## Joined components -/

/-- The split of components joined by slashes. -/
def joined : List Str → List SplitResult
  | [] => []
  | [t] => [.text t]
  | t :: ts => .text t :: .delim ['/'] :: joined ts

theorem fullSplit_text {t : Str} (ht : Part t) {rest : Str} (hrest : isAbsolute rest = true ∨ rest = []) :
    fullSplit (t ++ rest) = .text t :: fullSplit rest := by
  obtain ⟨hne, hsep⟩ := ht
  have hfirst : ∀ t m, fullSplit rest ≠ .text t :: m := by
    intro t m heq
    rcases hrest with habs | rfl
    · have h := fullSplit_splits rest
      rw [heq] at h
      cases h with
      | relative _ hrel =>
        rw [habs] at hrel
        cases hrel
    · cases heq
  induction t with
  | nil => exact absurd rfl hne
  | cons c t ih =>
    obtain ⟨hc, ht⟩ := List.forall_mem_cons.1 hsep
    rw [List.cons_append, fullSplit, if_neg (by simp [hc])]
    cases t with
    | nil =>
      rw [List.nil_append, addText]
      exact hfirst
    | cons c' t =>
      rw [ih (List.cons_ne_nil c' t) ht]
      rfl

theorem isAbsolute_intercalate {ts : List Str} (h : ∀ t ∈ ts, Part t) : isAbsolute (['/'].intercalate ts) = false := by
  cases ts with
  | nil => rfl
  | cons t ts =>
    obtain ⟨⟨hne, hsep⟩, -⟩ := List.forall_mem_cons.1 h
    obtain ⟨c, cs, rfl⟩ := List.exists_cons_of_ne_nil hne
    have hc : isSep c = false := hsep c List.mem_cons_self
    cases ts with
    | nil => simpa [isAbsolute] using hc
    | cons t' ts => simpa [isAbsolute, List.intercalate_cons_cons] using hc

theorem fullSplit_intercalate : ∀ {ts : List Str}, (∀ t ∈ ts, Part t) → fullSplit (['/'].intercalate ts) = joined ts
  | [], _ => rfl
  | [t], h => by
    have ht := h t List.mem_cons_self
    have heq : fullSplit (t ++ []) = .text t :: fullSplit [] := fullSplit_text ht (.inr rfl)
    rw [List.append_nil] at heq
    rw [List.intercalate_singleton, heq]
    rfl
  | t :: t' :: ts, h => by
    obtain ⟨ht, hts⟩ := List.forall_mem_cons.1 h
    have ih := fullSplit_intercalate hts
    have hrel := isAbsolute_intercalate hts
    rw [List.intercalate_cons_cons, List.append_assoc, fullSplit_text ht (.inl rfl), joined, List.singleton_append,
      fullSplit, if_pos (by decide), ih]
    · cases ts <;> rfl
    · exact List.cons_ne_nil t' ts

theorem dirs_joined (ts : List Str) (last : Str) : dirs (joined (ts ++ [last])) = (ts, some last) := by
  induction ts with
  | nil => rfl
  | cons t ts ih =>
    obtain ⟨t', ts', hts⟩ := List.exists_cons_of_ne_nil (List.append_ne_nil_of_right_ne_nil ts (List.cons_ne_nil last []))
    rw [hts] at ih
    rw [List.cons_append, hts, joined, dirs, ih]
    exact List.cons_ne_nil t' ts'

/-- The text of components, behind a slash if the path is absolute. -/
def pathText (abs : Bool) (ts : List Str) : Str := if abs then '/' :: ['/'].intercalate ts else ['/'].intercalate ts

theorem isAbsolute_pathText {abs : Bool} {ts : List Str} (h : ∀ t ∈ ts, Part t) : isAbsolute (pathText abs ts) = abs := by
  cases abs with
  | true => rfl
  | false => exact isAbsolute_intercalate h

theorem fullSplit_pathText {abs : Bool} {ts : List Str} (h : ∀ t ∈ ts, Part t) :
    fullSplit (pathText abs ts) = if abs then .delim ['/'] :: joined ts else joined ts := by
  cases abs with
  | false => exact fullSplit_intercalate h
  | true =>
    change fullSplit ('/' :: ['/'].intercalate ts) = .delim ['/'] :: joined ts
    rw [fullSplit, if_pos (by decide), fullSplit_intercalate h]
    match ts with
    | [] | [_] | _ :: _ :: _ => rfl

theorem partsOf_pathText {abs : Bool} {ts : List Str} (h : ∀ t ∈ ts, Part t) :
    partsOf (pathText abs ts) = (ts.dropLast, ts.getLast?) := by
  have hdirs : dirs (joined ts) = (ts.dropLast, ts.getLast?) := by
    rcases List.eq_nil_or_concat' ts with rfl | ⟨front, last, rfl⟩
    · rfl
    · rw [dirs_joined, List.dropLast_concat, List.getLast?_concat]
  rw [partsOf, fullSplit_pathText h]
  cases abs with
  | true => exact hdirs
  | false =>
    rw [← hdirs]
    match ts with
    | [] | [_] | _ :: _ :: _ => rfl

end EvilHaxe.Path
