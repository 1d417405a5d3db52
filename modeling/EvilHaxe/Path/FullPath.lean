/-
`flat_path` of `path.ml`: the name of a type as one identifier.
-/
import EvilHaxe.Lib.Marks
import EvilHaxe.Lib.Lines
import EvilHaxe.Lib.Steps

namespace EvilHaxe.Path

open Lib

/-- A text of the source, by its characters. -/
abbrev Str := List Char

/-- `ExtString.String.nsplit`, for a separator of one character. -/
def nsplit (str : Str) (sep : Char) : List Str := if str = [] then [] else str.splitOn sep

/-- The local `escape` of `flat_path`. -/
def escape (str : Str) : Str := ['_', '$'].intercalate (nsplit str '_')

/-- `flat_path`, of a package and a name. -/
def flatPath : List Str × Str → Str
  | ([], s) => escape s
  | (p, s) => ['_'].intercalate (p.map escape) ++ ['_'] ++ escape s

/-- The parts of a type path, in order. -/
def pathParts (path : List Str × Str) : List Str := path.1 ++ [path.2]

theorem escape_eq_marked (str : Str) : escape str = marked '_' '$' str := by
  unfold escape nsplit
  split
  · next h => rw [h]; rfl
  · exact marked_eq_intercalate str

/-- A flat path is its escaped parts, joined by underscores. -/
theorem flatPath_eq (path : List Str × Str) :
    flatPath path = ['_'].intercalate ((pathParts path).map (marked '_' '$')) := by
  obtain ⟨p, s⟩ := path
  have hmap : p.map escape = p.map (marked '_' '$') := List.map_congr_left fun a _ => escape_eq_marked a
  cases p with
  | nil => rw [flatPath, escape_eq_marked]; simp [pathParts]
  | cons a p =>
    rw [flatPath, hmap, escape_eq_marked, pathParts, List.map_append, List.map_singleton, intercalate_append_cons,
      intercalate_append_sep (by simp), List.intercalate_singleton]
    simp

/-- Flat paths are equal only where the type paths are, whatever underscores their parts contain. -/
theorem flatPath_inj (p q : List Str × Str) (hp : ∀ part ∈ pathParts p, '$' ∉ part)
    (hq : ∀ part ∈ pathParts q, '$' ∉ part) : flatPath p = flatPath q ↔ p = q := by
  constructor
  · intro h
    rw [flatPath_eq, flatPath_eq] at h
    have hparts : pathParts p = pathParts q :=
      intercalate_marked_inj (by decide) (by simp [pathParts]) (by simp [pathParts]) hp hq h
    obtain ⟨hpack, hname⟩ := List.append_inj' hparts rfl
    exact Prod.ext hpack (List.singleton_inj.1 hname)
  · rintro rfl
    rfl

/-- `flatPath_inj` at two paths that differ in what their underscores separate. -/
theorem flatPath_inj_underscores :
    flatPath (["a".toList], "_b".toList) ≠ flatPath (["a".toList, []], "b".toList) := by
  intro h
  have heq := (flatPath_inj (["a".toList], "_b".toList) (["a".toList, []], "b".toList) (by decide) (by decide)).1 h
  revert heq
  decide

/-! `get_full_path` and `UniqueKey.create` of `path.ml`, where the platform is not Windows. -/

/-! ## The scanner -/

/-- The local `skip_past_slash`, on what is left of the path. -/
def skipPastSlash : Str → Str
  | [] => []
  | c :: rest => if c = '/' then rest else skipPastSlash rest

theorem length_skipPastSlash : ∀ cs : Str, cs ≠ [] → (skipPastSlash cs).length < cs.length
  | c :: rest, _ => by
    rw [skipPastSlash]
    split
    · exact Nat.lt_succ_self _
    · cases rest with
      | nil => exact Nat.zero_lt_one
      | cons d rest => exact Nat.lt_succ_of_lt (length_skipPastSlash (d :: rest) (List.cons_ne_nil d rest))

/-- The test that `has_dots_or_double_slash` makes where a component begins; `first` says that it is the beginning of the
path. -/
def hasHere (first : Bool) : Str → Bool
  | '.' :: a :: b :: _ => a = '.' && b = '/' || a = '/'
  | ['.', a] => a = '/' || a = '.'
  | ['.'] => true
  | '/' :: _ => !first
  | _ => false

/-- The local `has_dots_or_double_slash`. -/
def hasDotsOrDoubleSlash (first : Bool) (cs : Str) : Bool :=
  if _ : cs = [] then false
  else if hasHere first cs then true
  else hasDotsOrDoubleSlash false (skipPastSlash cs)
termination_by cs.length
decreasing_by exact length_skipPastSlash cs ‹_›

/-- What the fold of `get_full_path` does with one component. -/
def keepPart (state : List Str × Nat) (current : Str) : List Str × Nat :=
  match state with
  | (acc, skip) =>
    if current = ['.', '.'] then (acc, skip + 1)
    else if current = ['.'] ∨ current = [] then (acc, skip)
    else if skip > 0 then (acc, skip - 1)
    else (current :: acc, skip)

/-- `get_full_path`; `cwd` is what `Unix.getcwd` gives. -/
def getFullPath (cwd f : Str) : Str :=
  let absolutePath := if f.head? = some '/' then f else if f = [] then cwd else cwd ++ ['/'] ++ f
  let hasTrailingSlash := f.getLast? = some '/'
  if ¬ hasTrailingSlash ∧ ¬ hasDotsOrDoubleSlash true f then absolutePath
  else
    let parts := absolutePath.splitOn '/'
    let normalizedParts := (parts.reverse.foldl keepPart ([], 0)).1
    '/' :: ['/'].intercalate normalizedParts

/-- `UniqueKey.create`. -/
def create (cwd f : Str) : Str := getFullPath cwd f

/-! ## What paths denote -/

/-- A component that names something: it is not empty and neither `.` nor `..`. -/
def Proper (part : Str) : Prop := part ≠ [] ∧ part ≠ ['.'] ∧ part ≠ ['.', '.'] ∧ '/' ∉ part

/-- An absolute path of proper components. -/
def fullText (parts : List Str) : Str := '/' :: ['/'].intercalate parts

/-- A directory, by the proper components on the way to it from the root. -/
structure Directory where
  parts : List Str
  proper : ∀ part ∈ parts, Proper part

def Directory.text (d : Directory) : Str := fullText d.parts

/-- The step that a component stands for. -/
def stepOf (part : Str) : Step Str :=
  if part = ['.', '.'] then .up else if part = ['.'] ∨ part = [] then .here else .down part

/-- The steps of a path. -/
def stepsOf (f : Str) : List (Step Str) := (f.splitOn '/').map stepOf

/-- The components that a path denotes from the directory `d`. -/
def denotes (d : Directory) (f : Str) : List Str :=
  (Step.walk (if f.head? = some '/' then [] else d.parts.reverse) (stepsOf f)).reverse

/-- A full path has no empty component, no `.` and no `..`. -/
def Clean (p : Str) : Prop := ∃ rest, p = '/' :: rest ∧ (rest = [] ∨ ∀ part ∈ rest.splitOn '/', Proper part)

/-- A relative path that the scanner finds nothing in, in the root directory. -/
def DoubleSlash (d : Directory) (f : Str) : Prop :=
  d.parts = [] ∧ f ≠ [] ∧ f.head? ≠ some '/' ∧ ∀ part ∈ f.splitOn '/', Proper part

end EvilHaxe.Path
