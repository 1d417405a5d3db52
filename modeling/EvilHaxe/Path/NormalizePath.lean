/-
`normalize_path` of `path.ml`, and what a path denotes when both slashes separate its components.
-/
import EvilHaxe.Lib.Cancelling
import EvilHaxe.Path.FullPath

namespace EvilHaxe.Path

open Lib

/-! ## `Str.full_split` -/

/-- The class of the regular expression `path_regex`. -/
def isSep (c : Char) : Bool := c = '/' || c = '\\'

/-- `Str.split_result`. -/
inductive SplitResult where
  | text (t : Str)
  | delim (d : Str)
  deriving DecidableEq

open SplitResult

/-- One more separator in front of a split. -/
def addDelim (c : Char) : List SplitResult → List SplitResult
  | .delim d :: m => .delim (c :: d) :: m
  | m => .delim [c] :: m

/-- One more character of a text in front of a split. -/
def addText (c : Char) : List SplitResult → List SplitResult
  | .text t :: m => .text (c :: t) :: m
  | m => .text [c] :: m

/-- `Str.full_split path_regex`: texts and delimiters are each as long as they can be. -/
def fullSplit : Str → List SplitResult
  | [] => []
  | c :: cs => if isSep c then addDelim c (fullSplit cs) else addText c (fullSplit cs)

/-! ## `normalize_path` -/

/-- What `normalize_path` raises: `Exit`, or the failure of `Globals.die`. -/
inductive Raised where
  | exit
  | die
  deriving DecidableEq

/-- The local `normalize`. -/
def normalize (acc : List Str) : List SplitResult → Except Raised (List Str)
  | [] => .ok acc.reverse
  | .text t :: .delim _ :: tl =>
    if t = ['.'] ∧ acc = [] then normalize [] tl
    else if t = ['.', '.'] then
      match acc with
      | [] => .error .exit
      | _ :: acc => normalize acc tl
    else normalize (t :: acc) tl
  | .delim _ :: tl => normalize ([] :: acc) tl
  | [.text t] => .ok (t :: acc).reverse
  | .text _ :: .text _ :: _ => .error .die

/-- `normalize_path`. -/
def normalizePath (path : Str) : Except Raised Str := do
  let parts ← normalize [] (fullSplit path)
  return ['/'].intercalate parts

/-! ## What a path denotes -/

def isAbsolute (path : Str) : Bool := path.head?.any isSep

/-- The components of a path between its separators, as steps. -/
def steps (path : Str) : List (Step Str) := (path.splitOnP isSep).map stepOf

/-- Where a path leads from a directory, each by the names on the way to it from the root, the last one first. -/
def location (place : List Str) (path : Str) : List Str :=
  Step.walk (if isAbsolute path then [] else place) (steps path)

/-- The path is normalised to one that denotes the same location from every directory, is absolute if the path is, and is
normalised to itself. -/
def Meaningful (path : Str) : Prop :=
  ∃ p, normalizePath path = .ok p ∧ (∀ place, location place p = location place path) ∧
    isAbsolute p = isAbsolute path ∧ normalizePath p = .ok p

/-! ## The components that `..` cancels -/

/-- The components of a path that a separator follows, and the one that none follows. -/
def dirs : List SplitResult → List Str × Option Str
  | .text t :: .delim _ :: m => (t :: (dirs m).1, (dirs m).2)
  | [.text t] => ([], some t)
  | _ => ([], none)

/-- The parts of a path: its components behind the separators it begins with. -/
def partsOf (path : Str) : List Str × Option Str :=
  match fullSplit path with
  | .delim _ :: m => dirs m
  | m => dirs m

/-- In a relative path, each `..` that a separator follows cancels a name. -/
def RelativeCancels (d : List Str) : Prop := ∃ s, Step.Cancels Step.IsDown (d.map stepOf) s

/-- In an absolute path, each `..` that a separator follows cancels a name or a `.`, and something is left or follows. After
the last `..` that cancels a `.` there is a place where all names are cancelled; or the path ends in a `..` behind one name
that is left, with all names before it and behind it cancelled. -/
def AbsoluteCancels (d : List Str) (last : Option Str) : Prop :=
  (∃ s, Step.Cancels Step.Anything (d.map stepOf) s ∧ (last = none → s ≠ [])) ∧
    (Step.Synced (d.map stepOf) ∨
      last = some ['.', '.'] ∧ ∃ w1 name w2, d.map stepOf = w1 ++ .down name :: w2 ∧ Step.Rooted w1 ∧ Step.Rooted w2)

/-- The condition under which `normalize_path` does what it is for. -/
def Normalizes (path : Str) : Prop :=
  if isAbsolute path then AbsoluteCancels (partsOf path).1 (partsOf path).2 else RelativeCancels (partsOf path).1

end EvilHaxe.Path
