/-
Reuse of cached modules by the compilation server: `check_module` of `server.ml`, over the modules of the cache and what
the checks of one compilation step find out about them.
-/
import Mathlib.Logic.Relation
import Mathlib.Data.Fintype.Card

namespace EvilHaxe.Server

/-! ## Modules -/

/-- `module_skip_reason`. -/
inductive SkipReason (M : Type) where
  | tainted (reason : String)
  | dependencyDirty (path : M) (reason : SkipReason M)
  | fileChanged (file : String)
  | shadowed (file : String)
  | libraryChanged

/-- `module_check_policy`. -/
inductive CheckPolicy where
  | noCheckFileTimeModification
  | checkFileContentModification
  | noCheckDependencies
  | noCheckShadowing
  | retype
  deriving DecidableEq

/-- `module_cache_state`. -/
inductive CacheState (M : Type) where
  | msGood
  | msBad (reason : SkipReason M)
  | msUnknown

/-- What a compilation step knows of the modules: their policies and dependencies, and what the file system and the
retyper answer. -/
structure Compilation (M : Type) where
  startMark : Int
  checkPolicy : M → List CheckPolicy
  deps : M → List M
  file : M → String
  hasExtensionHx : M → Bool
  /-- `!ServerConfig.do_not_check_modules && !Parser.display_mode <> DMNone`. -/
  doNotCheckModules : Bool
  /-- What `check_module_path` raises. -/
  checkModulePath : M → Option (SkipReason M)
  fileTimeDiffers : M → Bool
  contentChanged : M → Bool
  attemptRetyping : M → Option String

/-- The marks of the modules, and the list `unknown_state_modules` of a call. -/
structure State (M : Type) where
  checked : M → Int
  cacheState : M → CacheState M
  unknownStateModules : List M

/-- A run without an answer: `die`, or the bound on the depth is too small. -/
inductive Failure where
  | died
  | outOfFuel

namespace State

variable {M : Type} [DecidableEq M] (s : State M)

def setChecked (m : M) (mark : Int) : State M := { s with checked := Function.update s.checked m mark }

def setCacheState (m : M) (state : CacheState M) : State M :=
  { s with cacheState := Function.update s.cacheState m state }

def addUnknown (m : M) : State M := { s with unknownStateModules := m :: s.unknownStateModules }

end State

namespace Compilation

variable {M : Type} (c : Compilation M)

/-! ## The checks of one module -/

def hasPolicy (m : M) (policy : CheckPolicy) : Bool :=
  (c.checkPolicy m).contains policy ||
    match policy with
    | .noCheckShadowing | .noCheckFileTimeModification => c.doNotCheckModules
    | _ => false

def checkFile (m : M) : Option (SkipReason M) :=
  if c.fileTimeDiffers m then
    if c.hasPolicy m .checkFileContentModification && !c.contentChanged m then none
    else some (.fileChanged (c.file m))
  else
    none

/-- The checks before those of the dependencies. -/
def ownChecks (m : M) : Option (SkipReason M) :=
  match if c.hasPolicy m .noCheckShadowing then none else c.checkModulePath m with
  | some reason => some reason
  | none => if !c.hasPolicy m .noCheckFileTimeModification || !c.hasExtensionHx m then c.checkFile m else none

/-! ## The search -/

variable [DecidableEq M]

/-- The attempt at retyping in `check`. The retyper sets the state of the module too. -/
def retyped (m : M) (dirty : Option (SkipReason M)) (s : State M) : Option (SkipReason M) × State M :=
  match dirty with
  | some (.dependencyDirty path reason) =>
    if c.hasPolicy m .retype then
      match c.attemptRetyping m with
      | none => (none, s.setCacheState m .msGood)
      | some _ => (some (.dependencyDirty path reason), s.setCacheState m .msUnknown)
    else
      (some (.dependencyDirty path reason), s)
  | dirty => (dirty, s)

/-- The end of `check`. A clean module is only put on the list, as this may be just an assumption. -/
def finish (m : M) (dirty : Option (SkipReason M)) (s : State M) : Option (SkipReason M) × State M :=
  match c.retyped m dirty s with
  | (some reason, s) => (some reason, s.setCacheState m (.msBad reason))
  | (none, s) => (none, s.addUnknown m)

abbrev Answer (M : Type) := Except Failure (Option (SkipReason M) × State M)

/-- `check_dependencies`. It stops at the first one that is dirty. -/
def checkDependencies (check : State M → M → Answer M) : State M → List M → Answer M
  | s, [] => .ok (none, s)
  | s, d :: rest =>
    match check s d with
    | .error e => .error e
    | .ok (none, s) => checkDependencies check s rest
    | .ok (some reason, s) => .ok (some (.dependencyDirty d reason), s)

/-- `check`. -/
def check : Nat → State M → M → Answer M
  | 0, _, _ => .error .outOfFuel
  | fuel + 1, s, m =>
    if s.checked m = c.startMark then
      match s.cacheState m with
      | .msGood | .msUnknown => .ok (none, s)
      | .msBad reason => .ok (some reason, s)
    else
      let s := s.setChecked m c.startMark
      match s.cacheState m with
      | .msBad reason => .ok (c.finish m (some reason) s)
      | .msUnknown => .error .died
      | .msGood =>
        let s := s.setCacheState m .msUnknown
        match c.ownChecks m with
        | some reason => .ok (c.finish m (some reason) s)
        | none =>
          if c.hasPolicy m .noCheckDependencies then .ok (c.finish m none s)
          else
            match checkDependencies (check fuel) s (c.deps m) with
            | .error e => .error e
            | .ok (dirty, s) => .ok (c.finish m dirty s)

/-! ## A call -/

def setGood (s : State M) (m : M) : State M := s.setCacheState m .msGood

def rollback (s : State M) (m : M) : State M :=
  match s.cacheState m with
  | .msUnknown => (s.setChecked m (c.startMark - 1)).setCacheState m .msGood
  | .msGood | .msBad _ => s

/-- `check_module`. -/
def checkModule (fuel : Nat) (s : State M) (m : M) : Answer M :=
  match c.check fuel { s with unknownStateModules := [] } m with
  | .error e => .error e
  | .ok (none, s) => .ok (none, s.unknownStateModules.foldl setGood s)
  | .ok (some reason, s) => .ok (some reason, s.unknownStateModules.foldl c.rollback s)

/-- Calls on one root after the other, in one compilation step. -/
def checkModules (fuel : Nat) : State M → List M → Except Failure (List (Option (SkipReason M)) × State M)
  | s, [] => .ok ([], s)
  | s, m :: rest =>
    match c.checkModule fuel s m with
    | .error e => .error e
    | .ok (state, s) =>
      match checkModules fuel s rest with
      | .error e => .error e
      | .ok (states, s) => .ok (state :: states, s)

end Compilation

end EvilHaxe.Server
