/-
Types with monomorphs (`tType.ml`), `follow` and `apply_params` (`tFunctions.ml`), and how the constraints of a monomorph
are added and read (`Monomorph` of `tUnification.ml`). Classes, enums, abstracts and typedefs are told apart by their
paths. What may not return takes fuel, and is `none` without it.
-/
import Mathlib.Data.List.Basic
import Mathlib.Logic.Relation

namespace EvilHaxe.Unify

/-- `TMono` stands for the one value made together with its monomorph, so that the identity of the value is that of the
monomorph. A `TLazy` is given by the type it stands for; of a field of a structure there is the name and the type. -/
inductive Ty where
  | tMono (r : Nat)
  | tEnum (e : String) (tl : List Ty)
  | tInst (c : String) (tl : List Ty)
  | tType (t : String) (tl : List Ty)
  | tAbstract (a : String) (tl : List Ty)
  | tFun (args : List Ty) (ret : Ty)
  | tAnon (aFields : List (String × Ty))
  | tDynamic (t : Option Ty)
  | tLazy (f : Ty)

inductive Constraint where
  | mMono (m : Nat) (name : Option String)
  | mField (cf : String × Ty)
  | mType (t : Ty) (name : Option String)
  | mOpenStructure
  | mEmptyStructure

structure Tmono where
  tmType : Option Ty
  tmDownConstraints : List Constraint
  tmUpConstraints : List (Ty × Option String)

/-- The monomorphs made so far are those below `next`. -/
structure Heap where
  next : Nat
  mono : Nat → Tmono

namespace Heap

def empty : Heap := ⟨0, fun _ => ⟨none, [], []⟩⟩

def type (h : Heap) (m : Nat) : Option Ty := (h.mono m).tmType

def down (h : Heap) (m : Nat) : List Constraint := (h.mono m).tmDownConstraints

def up (h : Heap) (m : Nat) : List (Ty × Option String) := (h.mono m).tmUpConstraints

def modify (h : Heap) (m : Nat) (f : Tmono → Tmono) : Heap :=
  { h with mono := fun x => if x = m then f (h.mono x) else h.mono x }

def setType (h : Heap) (m : Nat) (t : Option Ty) : Heap := h.modify m fun x => { x with tmType := t }

def setDown (h : Heap) (m : Nat) (l : List Constraint) : Heap := h.modify m fun x => { x with tmDownConstraints := l }

def setUp (h : Heap) (m : Nat) (l : List (Ty × Option String)) : Heap :=
  h.modify m fun x => { x with tmUpConstraints := l }

def create (h : Heap) : Heap := { h with next := h.next + 1 }

variable (h : Heap) (m x : Nat)

@[simp] theorem type_create : h.create.type x = h.type x := rfl
@[simp] theorem down_create : h.create.down x = h.down x := rfl
@[simp] theorem up_create : h.create.up x = h.up x := rfl

@[simp] theorem type_setType (t : Option Ty) : (h.setType m t).type x = if x = m then t else h.type x := by
  simp only [type, setType, modify]
  split <;> rfl

@[simp] theorem down_setType (t : Option Ty) : (h.setType m t).down x = h.down x := by
  simp only [down, setType, modify]
  split <;> rfl

@[simp] theorem up_setType (t : Option Ty) : (h.setType m t).up x = h.up x := by
  simp only [up, setType, modify]
  split <;> rfl

@[simp] theorem type_setDown (l : List Constraint) : (h.setDown m l).type x = h.type x := by
  simp only [type, setDown, modify]
  split <;> rfl

@[simp] theorem down_setDown (l : List Constraint) : (h.setDown m l).down x = if x = m then l else h.down x := by
  simp only [down, setDown, modify]
  split <;> rfl

@[simp] theorem up_setDown (l : List Constraint) : (h.setDown m l).up x = h.up x := by
  simp only [up, setDown, modify]
  split <;> rfl

@[simp] theorem type_setUp (l : List (Ty × Option String)) : (h.setUp m l).type x = h.type x := by
  simp only [type, setUp, modify]
  split <;> rfl

@[simp] theorem down_setUp (l : List (Ty × Option String)) : (h.setUp m l).down x = h.down x := by
  simp only [down, setUp, modify]
  split <;> rfl

@[simp] theorem up_setUp (l : List (Ty × Option String)) : (h.setUp m l).up x = if x = m then l else h.up x := by
  simp only [up, setUp, modify]
  split <;> rfl

end Heap

/-! ## Types under the bindings -/

/-- What this part of the compiler takes from elsewhere: the types that typedefs stand for. -/
abbrev Typedefs := String → List Ty → Ty

/-- One step of `follow`. -/
def followOnce (D : Typedefs) (h : Heap) : Ty → Option Ty
  | .tMono r => h.type r
  | .tLazy f => some f
  | .tType t tl => some (D t tl)
  | .tAbstract "Null" [t] => some t
  | _ => none

def follow (D : Typedefs) : Nat → Heap → Ty → Option Ty
  | 0, _, _ => none
  | n + 1, h, t =>
    match followOnce D h t with
    | some t' => follow D n h t'
    | none => some t

/-- The substitution of `apply_params`; a type parameter is a class without parameters. -/
def applyParams (subst : List (String × Ty)) : Nat → Heap → Ty → Option Ty
  | 0, _, _ => none
  | n + 1, h, t =>
    match t with
    | .tMono r =>
      match h.type r with
      | none => some t
      | some t => applyParams subst n h t
    | .tInst c [] => some ((subst.lookup c).getD t)
    | .tInst c tl => (tl.mapM (applyParams subst n h)).map (.tInst c)
    | .tEnum e tl => (tl.mapM (applyParams subst n h)).map (.tEnum e)
    | .tType t tl => (tl.mapM (applyParams subst n h)).map (.tType t)
    | .tAbstract a tl => (tl.mapM (applyParams subst n h)).map (.tAbstract a)
    | .tFun args ret => do return .tFun (← args.mapM (applyParams subst n h)) (← applyParams subst n h ret)
    | .tAnon fields =>
      (fields.mapM fun cf => (applyParams subst n h cf.2).map fun t => (cf.1, t)).map .tAnon
    | .tLazy f => applyParams subst n h f
    | .tDynamic none => some t
    | .tDynamic (some t) => (applyParams subst n h t).map fun t => .tDynamic (some t)

/-- The types that a type is made of. -/
def Ty.children : Ty → List Ty
  | .tMono _ => []
  | .tEnum _ tl | .tInst _ tl | .tType _ tl | .tAbstract _ tl => tl
  | .tFun args ret => args ++ [ret]
  | .tAnon fields => fields.map Prod.snd
  | .tDynamic t => t.toList
  | .tLazy f => [f]

/-- Whether `m` is met in a type, through what monomorphs are bound to: the loop of `link`, and that of the check for
recursion in `close`. -/
def occurs (h : Heap) (m : Nat) : Nat → Ty → Option Bool
  | 0, _ => none
  | n + 1, .tMono r =>
    if r = m then some true
    else
      match h.type r with
      | none => some false
      | some t => occurs h m n t
  | n + 1, t => t.children.anyM (occurs h m n)

/-! ## Adding constraints -/

def addUpConstraint (h : Heap) (m : Nat) (constr : Ty × Option String) : Heap :=
  let h := h.setUp m (constr :: h.up m)
  match constr.1 with
  | .tMono m2 => h.setDown m2 (.mMono m constr.2 :: h.down m2)
  | _ => h

def addDownConstraint (h : Heap) (m : Nat) (constr : Constraint) : Heap :=
  let h := h.setDown m (constr :: h.down m)
  match constr with
  | .mMono m2 s => h.setUp m2 ((.tMono m, s) :: h.up m)
  | _ => h

def constraintOfType (D : Typedefs) (n : Nat) (h : Heap) (name : Option String) (t : Ty) : Option (List Constraint) :=
  match follow D n h t with
  | none => none
  | some (.tMono m2) => some [.mMono m2 name]
  | some (.tAnon []) => some [.mEmptyStructure]
  | some (.tAnon fields) => some (fields.foldl (fun l cf => .mField cf :: l) [])
  | some _ => some [.mType t name]

def constrainToType (D : Typedefs) (n : Nat) (h : Heap) (m : Nat) (name : Option String) (t : Ty) : Option Heap :=
  (constraintOfType D n h name t).map fun l => l.foldl (fun h c => addDownConstraint h m c) h

/-! ## Reading constraints -/

inductive ConstraintKind where
  | cUnknown
  | cTypes (l : List (Ty × Option String))
  | cStructural (fields : List (String × Ty)) (isOpen : Bool)
  | cMixed (l : List ConstraintKind)

/-- What `classify_down_constraints'` gathers. A map is the list of its bindings, each key once. -/
structure Gathered where
  types : List (Ty × Option String)
  fields : List (String × Ty)
  isOpen : Bool
  monos : List Nat

namespace Gathered

def empty : Gathered := ⟨[], [], false, []⟩

def kind (g : Gathered) : ConstraintKind :=
  let k1 := if g.types.isEmpty then .cUnknown else .cTypes g.types
  if !g.fields.isEmpty || g.isOpen then
    let k2 := .cStructural g.fields g.isOpen
    if g.types.isEmpty then k2 else .cMixed [k1, k2]
  else k1

def addField (g : Gathered) (cf : String × Ty) : Gathered :=
  { g with fields := cf :: g.fields.filter fun f => f.1 ≠ cf.1 }

end Gathered

/-- The loop of `classify_down_constraints'` over one constraint. -/
def check (D : Typedefs) (h : Heap) : Nat → Gathered → Constraint → Option Gathered
  | 0, _, _ => none
  | n + 1, g, .mMono m2 name =>
    match h.type m2 with
    | none => do
      let g2 ← (h.down m2).foldlM (check D h n) .empty
      let g := { g with monos := g.monos ++ g2.monos }
      match g2.kind with
      | .cUnknown => return { g with monos := m2 :: g.monos }
      | _ => (h.down m2).foldlM (check D h n) g
    | some t => do (← constraintOfType D n h name t).foldlM (check D h n) g
  | _ + 1, g, .mField cf => some (g.addField cf)
  | _ + 1, g, .mType t2 name => some { g with types := g.types ++ [(t2, name)] }
  | _ + 1, g, .mOpenStructure | _ + 1, g, .mEmptyStructure => some { g with isOpen := true }

def classifyDownConstraints' (D : Typedefs) (n : Nat) (h : Heap) (m : Nat) : Option (List Nat × ConstraintKind) :=
  ((h.down m).foldlM (check D h n) .empty).map fun g => (g.monos, g.kind)

def classifyDownConstraints (D : Typedefs) (n : Nat) (h : Heap) (m : Nat) : Option ConstraintKind :=
  (classifyDownConstraints' D n h m).map Prod.snd

mutual

/-- The types that `check_down_constraints` unifies a type with, in order. The name of a constraint is for the error. -/
def ConstraintKind.targets : ConstraintKind → List Ty
  | .cUnknown => []
  | .cTypes tl => tl.map Prod.fst
  | .cStructural fields _ => [.tAnon fields]
  | .cMixed l => targetsAll l

def ConstraintKind.targetsAll : List ConstraintKind → List Ty
  | [] => []
  | k :: l => k.targets ++ targetsAll l

end

/-- The loop of `collect_up_constraints` over one monomorph. -/
def collect (D : Typedefs) (h : Heap) : Nat → Nat → List (Ty × Option String) → Option (List (Ty × Option String))
  | 0, _, _ => none
  | n + 1, m, acc =>
    (h.up m).foldlM
      (fun acc (t, name) =>
        match t with
        | .tMono m2 =>
          match h.type m2 with
          | some t =>
            match follow D n h t with
            | none => none
            | some (.tMono _) => some acc
            | some _ => some ((t, name) :: acc)
          | none => collect D h n m2 acc
        | _ => some ((t, name) :: acc))
      acc

def collectUpConstraints (D : Typedefs) (n : Nat) (h : Heap) (m : Nat) : Option (List (Ty × Option String)) :=
  collect D h n m []

def doBind (h : Heap) (m : Nat) (t : Ty) : Heap := ((h.setType m (some t)).setDown m []).setUp m []

/-! `bind`, `close` and `spawn_constrained_monos` of `Monomorph`, and `link`, of `tUnification.ml`. The module calls `unify`
through the reference `unify_ref`; what such a call does to monomorphs it does by these operations, and so `unify` is
given by the operations it makes and by whether it returns. -/

inductive Op where
  | create
  | addUpConstraint (m : Nat) (constr : Ty × Option String)
  | addDownConstraint (m : Nat) (constr : Constraint)
  | constrainToType (m : Nat) (name : Option String) (t : Ty)
  /-- `spawn_constrained_monos map params`; of each type parameter its path and its constraints. -/
  | spawn (map : Ty → Ty) (params : List (String × List Ty))
  | bind (m : Nat) (t : Ty)
  | close (m : Nat)
  /-- What `type_eq` and `unify` do at the monomorph `e` and a type `b`: `link` if it is unbound. -/
  | link (e : Nat) (b : Ty)

structure Context where
  typedefs : Typedefs
  unify : Heap → Ty → Ty → List Op × Bool

/-- What happens in a run. -/
inductive Event where
  /-- An operation of the run, or of a call of `unify`. -/
  | asked (h : Heap) (op : Op)
  /-- Any operation, also one that is made by another. -/
  | call (h : Heap) (op : Op)
  /-- `bind`, called in `h`, binds `m` to `t` in `h1`, when the up constraints have been checked. -/
  | binds (h h1 : Heap) (m : Nat) (t : Ty)
  /-- An operation raises an exception. -/
  | fails

/-- Where an operation leaves the monomorphs, and whether it returns. -/
structure Out where
  heap : Heap
  ok : Bool
  events : List Event

namespace Out

def done (h : Heap) : Out := ⟨h, true, []⟩

def fail (h : Heap) : Out := ⟨h, false, [.fails]⟩

def after (es : List Event) (r : Out) : Out := { r with events := es ++ r.events }

end Out

def runOps (step : Heap → Op → Option Out) : Heap → List Op → Option Out
  | h, [] => some (.done h)
  | h, op :: ops => do
    let r ← step h op
    let r' ← runOps step r.heap ops
    return ⟨r'.heap, r.ok && r'.ok, (.asked h op :: r.events) ++ r'.events⟩

/-- Calls of `unify`, up to the first that raises an exception. -/
def runChecks (C : Context) (step : Heap → Op → Option Out) : Heap → List (Ty × Ty) → Option Out
  | h, [] => some (.done h)
  | h, (a, b) :: rest => do
    let (script, ok) := C.unify h a b
    let r ← runOps step h script
    if ok then (runChecks C step r.heap rest).map (·.after r.events)
    else return Out.after r.events (.fail r.heap)

/-- The last case of `bind`. -/
def bindType (C : Context) (n : Nat) (step : Heap → Op → Option Out) (h : Heap) (m : Nat) (t : Ty) : Option Out := do
  let ups ← collectUpConstraints C.typedefs n h m
  let r1 ← runChecks C step h (ups.map fun c => (c.1, t))
  if !r1.ok then return r1
  else
    let h1 := r1.heap.setType m (some t)
    let kind ← classifyDownConstraints C.typedefs n h1 m
    let r2 ← runChecks C step h1 (kind.targets.map fun t2 => (t, t2))
    let events := r1.events ++ .binds h r1.heap m t :: r2.events
    if r2.ok then return ⟨doBind r2.heap m t, true, events⟩
    else return ⟨r2.heap.setType m none, false, events⟩

/-- `bind` of `m` to the unbound monomorph `m2`. -/
def bindMono (h : Heap) (m m2 : Nat) : Heap :=
  let h := (h.down m).foldl (fun h c => addDownConstraint h m2 c) h
  let h := (h.up m).foldl (fun h c => addUpConstraint h m2 c) h
  doBind h m (.tMono m2)

def hasOpenStructure (h : Heap) (m : Nat) : Bool :=
  (h.down m).any fun
    | .mOpenStructure => true
    | _ => false

def closeUnbound (C : Context) (n : Nat) (h : Heap) (m : Nat) : Option Out := do
  match ← classifyDownConstraints C.typedefs n h m with
  | .cUnknown => return .done h
  | .cTypes [(t, _)] => return .done (doBind h m t)
  | .cTypes _ | .cMixed _ => return .done h
  | .cStructural fields _ =>
    if ← (fields.map Prod.snd).anyM (occurs h m n) then return .fail h
    else return .done (doBind h m (.tAnon fields))

def linkUnbound (C : Context) (n : Nat) (step : Heap → Op → Option Out) (h : Heap) (e : Nat) (b : Ty) : Option Out := do
  if ← occurs h e n b then
    match ← follow C.typedefs n h b with
    | .tMono r => return if r = e then .done h else .fail h
    | _ => return .fail h
  else
    match b with
    | .tDynamic none => return .done h
    | _ => step h (.bind e b)

def spawnOps (n : Nat) (h : Heap) (map : Ty → Ty) (params : List (String × List Ty)) : Option (List Op) := do
  let monos := (List.range params.length).map (h.next + ·)
  let subst := (params.map Prod.fst).zip (monos.map Ty.tMono)
  let constrs ← (monos.zip params).mapM fun (mono, path, constr) =>
    constr.mapM fun t => (applyParams subst n h t).map fun t => Op.constrainToType mono (some path) (map t)
  return params.map (fun _ => .create) ++ constrs.flatten

/-- One operation; the operations it makes in turn are done by `step`. -/
def perform (C : Context) (n : Nat) (step : Heap → Op → Option Out) (h : Heap) : Op → Option Out
  | .create => some (.done h.create)
  | .addUpConstraint m constr => some (.done (addUpConstraint h m constr))
  | .addDownConstraint m constr => some (.done (addDownConstraint h m constr))
  | .constrainToType m name t => (constrainToType C.typedefs n h m name t).map Out.done
  | .spawn map params => do runOps step h (← spawnOps n h map params)
  | .bind m (.tAnon fields) =>
    if hasOpenStructure h m then do step (← constrainToType C.typedefs n h m none (.tAnon fields)) (.close m)
    else bindType C n step h m (.tAnon fields)
  | .bind m (.tMono m2) =>
    if m = m2 then some (.done h)
    else
      match h.type m2 with
      | none => some (.done (bindMono h m m2))
      | some t => step h (.bind m t)
  | .bind m t => bindType C n step h m t
  | .close m =>
    match h.type m with
    | some _ => some (.done h)
    | none => closeUnbound C n h m
  | .link e b =>
    match h.type e with
    | some _ => some (.done h)
    | none => linkUnbound C n step h e b

def exec (C : Context) : Nat → Heap → Op → Option Out
  | 0, _, _ => none
  | n + 1, h, op => (perform C n (exec C n) h op).map (Out.after [.call h op])

/-- A run of operations from no monomorphs at all. -/
def run (C : Context) (n : Nat) (ops : List Op) : Option Out := runOps (exec C n) .empty ops

end EvilHaxe.Unify
