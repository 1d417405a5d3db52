/-
Arrays of the macro interpreter: `evalArray.ml`, and the methods of `StdArray` in `evalStdLib.ml` that call it. A value
is an array of slots and a length; the slots past the length are there for elements to come.
-/
import Mathlib.Data.List.Basic

namespace EvilHaxe.Eval

variable {V : Type}

/-! ## The arrays of OCaml -/

namespace OcamlArray

/-- `Array.blit`; `none` is the exception `Invalid_argument`, here and below. -/
def blit (src : List V) (srcPos : Nat) (dst : List V) (dstPos len : Nat) : Option (List V) :=
  if srcPos + len ≤ src.length ∧ dstPos + len ≤ dst.length then
    some (dst.take dstPos ++ (src.drop srcPos).take len ++ dst.drop (dstPos + len))
  else none

def set (values : List V) (i : Nat) (v : V) : Option (List V) :=
  if i < values.length then some (values.set i v) else none

def sub (values : List V) (pos len : Nat) : Option (List V) :=
  if pos + len ≤ values.length then some ((values.drop pos).take len) else none

def fill (values : List V) (pos len : Int) (v : V) : Option (List V) :=
  if 0 ≤ pos ∧ 0 ≤ len ∧ pos + len ≤ values.length then
    some (values.take pos.toNat ++ List.replicate len.toNat v ++ values.drop (pos + len).toNat)
  else none

end OcamlArray

/-- `Array.sort`: the elements in an order that the comparison allows. It is not stable. -/
structure ArraySort (V : Type) where
  sort : (V → V → Int) → List V → List V
  perm : ∀ f values, (sort f values).Perm values

/-! ## `EvalArray` -/

structure Varray (V : Type) where
  avalues : List V
  alength : Nat

namespace EvalArray

variable (vnull : V)

def create (values : List V) : Varray V := { avalues := values, alength := values.length }

def make (len : Nat) : List V := List.replicate len vnull

def concat (a a2 : Varray V) : Option (Varray V) := do
  let values' := make vnull (a.alength + a2.alength)
  let values' ← OcamlArray.blit a.avalues 0 values' 0 a.alength
  let values' ← OcamlArray.blit a2.avalues 0 values' a.alength a2.alength
  return create values'

def copy (a : Varray V) : Option (Varray V) := do
  return create (← OcamlArray.sub a.avalues 0 a.alength)

def get (a : Varray V) (i : Int) : V :=
  if i < 0 ∨ i ≥ a.alength then vnull else a.avalues.getD i.toNat vnull

/-- `none` is `-1`. -/
def indexOf (a : Varray V) (equals : V → V → Bool) (x : V) (fromIndex : Nat) : Option Nat :=
  if fromIndex ≥ a.alength then none
  else if equals x (a.avalues.getD fromIndex vnull) then some fromIndex
  else indexOf a equals x (fromIndex + 1)
termination_by a.alength - fromIndex

/-- The slots of `insert` and `push`, with one for a new element. -/
def room (a : Varray V) : Option (List V) :=
  if a.alength + 1 ≥ a.avalues.length then
    OcamlArray.blit a.avalues 0 (make vnull (a.avalues.length * 2 + 5)) 0 a.alength
  else some a.avalues

def insert (a : Varray V) (pos : Nat) (x : V) : Option (Varray V) := do
  let values ← room vnull a
  let values ← OcamlArray.blit values pos values (pos + 1) (a.alength - pos)
  let values ← OcamlArray.set values pos x
  return { avalues := values, alength := a.alength + 1 }

def pop (a : Varray V) : Option (Varray V × V) := do
  if a.alength = 0 then return (a, vnull)
  let v := get vnull a (a.alength - 1 : Nat)
  let values ← OcamlArray.set a.avalues (a.alength - 1) vnull
  return ({ avalues := values, alength := a.alength - 1 }, v)

def push (a : Varray V) (v : V) : Option (Varray V × Nat) := do
  let values ← OcamlArray.set (← room vnull a) a.alength v
  return ({ avalues := values, alength := a.alength + 1 }, a.alength + 1)

def remove (a : Varray V) (equals : V → V → Bool) (x : V) : Option (Varray V × Bool) := do
  match indexOf vnull a equals x 0 with
  | none => return (a, false)
  | some i =>
    let values ← OcamlArray.blit a.avalues (i + 1) a.avalues i (a.alength - i - 1)
    return ({ avalues := values, alength := a.alength - 1 }, true)

/-- The length stays. -/
def reverse (a : Varray V) : Option (Varray V) := do
  return { a with avalues := (← OcamlArray.sub a.avalues 0 a.alength).reverse }

/-- The slots of `set`, with one at the index. -/
def roomAt (a : Varray V) (i : Nat) : Option (List V) :=
  if i ≥ a.avalues.length then
    OcamlArray.blit a.avalues 0 (make vnull (max (i + 5) (a.avalues.length * 2 + 5))) 0 a.alength
  else some a.avalues

def set (a : Varray V) (i : Nat) (v : V) : Option (Varray V) := do
  if i ≥ a.alength then
    return { avalues := ← OcamlArray.set (← roomAt vnull a i) i v, alength := i + 1 }
  else return { a with avalues := ← OcamlArray.set a.avalues i v }

def shift (a : Varray V) : Option (Varray V × V) := do
  if a.alength = 0 then return (a, vnull)
  let v := get vnull a 0
  let values ← OcamlArray.blit a.avalues 1 a.avalues 0 (a.alength - 1)
  return ({ avalues := values, alength := a.alength - 1 }, v)

def slice (a : Varray V) (pos end' : Nat) : Option (Varray V) := do
  if pos > a.alength ∨ pos ≥ end' then return create []
  else return create (← OcamlArray.sub a.avalues pos (end' - pos))

def sort (s : ArraySort V) (a : Varray V) (f : V → V → Int) : Option (Varray V) := do
  return { a with avalues := s.sort f (← OcamlArray.sub a.avalues 0 a.alength) }

def splice (a : Varray V) (pos len end' : Nat) : Option (Varray V × Varray V) := do
  let values' ← OcamlArray.sub a.avalues pos len
  let values ← OcamlArray.blit a.avalues (pos + len) a.avalues pos (a.alength - end')
  return ({ avalues := values, alength := a.alength - len }, create values')

/-- The slots of `unshift`, with the elements one place further on. -/
def moved (a : Varray V) : Option (List V) :=
  if a.alength + 1 ≥ a.avalues.length then
    OcamlArray.blit a.avalues 0 (make vnull (a.avalues.length * 2 + 5)) 1 a.alength
  else OcamlArray.blit a.avalues 0 a.avalues 1 a.alength

def unshift (a : Varray V) (v : V) : Option (Varray V) := do
  let values ← OcamlArray.set (← moved vnull a) 0 v
  return { avalues := values, alength := a.alength + 1 }

def resize (a : Varray V) (l : Int) : Option (Varray V) := do
  if a.alength < l then set vnull a (l - 1).toNat vnull
  else if a.alength > l then
    return { avalues := ← OcamlArray.fill a.avalues l (a.alength - l) vnull, alength := l.toNat }
  else return a

end EvalArray

/-! ## `StdArray` -/

namespace StdArray

variable (vnull : V)

/-- A negative position counts from the end. -/
def position (length : Nat) (pos : Int) : Nat :=
  let pos := if pos < 0 then length + pos else pos
  (if pos < 0 then 0 else pos).toNat

def insert (a : Varray V) (pos : Int) (x : V) : Option (Varray V) :=
  if pos ≥ a.alength then (EvalArray.push vnull a x).map Prod.fst
  else EvalArray.insert vnull a (position a.alength pos) x

def slice (a : Varray V) (pos : Int) (end' : Option Int) : Option (Varray V) :=
  let length := a.alength
  let end' := end'.getD length
  let end' := if end' > length then (length : Int) else end'
  EvalArray.slice a (position length pos) (position length end')

/-- The array after it and the array of what was taken out. -/
def splice (a : Varray V) (pos len : Int) : Option (Varray V × Varray V) :=
  let length := a.alength
  if len < 0 ∨ pos > length then some (a, EvalArray.create [])
  else
    let pos := position length pos
    let delta := length - pos
    let len := if len > delta then delta else len.toNat
    EvalArray.splice a pos len (pos + len)

end StdArray

/-! ## Programs that work on arrays -/

/-- An operation. An array is known by its place among all arrays made so far. -/
inductive Op (V : Type) where
  | literal (vs : List V)
  | push (a : Nat) (v : V)
  | pop (a : Nat)
  | shift (a : Nat)
  | unshift (a : Nat) (v : V)
  | insert (a : Nat) (pos : Int) (v : V)
  | remove (a : Nat) (v : V)
  | splice (a : Nat) (pos len : Int)
  | slice (a : Nat) (pos : Int) (end' : Option Int)
  | concat (a b : Nat)
  | reverse (a : Nat)
  | resize (a : Nat) (len : Int)
  | set (a : Nat) (i : Int) (v : V)
  | get (a : Nat) (i : Int)
  | sort (a : Nat) (f : V → V → Int)
  | copy (a : Nat)

inductive Output (V : Type) where
  | void
  | value (v : V)
  | int (i : Nat)
  | bool (b : Bool)
  | array (a : Nat)

/-- What the interpreter has at hand: its null, equality and sorting. -/
structure Env (V : Type) where
  vnull : V
  equals : V → V → Bool
  arraySort : ArraySort V

/-- Work on the array in one place. -/
def update {A R : Type} (heap : List A) (a : Nat) (f : A → Option (A × R)) : Option (List A × R) := do
  let (x, r) ← f (← heap[a]?)
  return (heap.set a x, r)

/-- The place of a new array. -/
def alloc {A : Type} (heap : List A) (x : A) : List A × Output V := (heap ++ [x], .array heap.length)

variable (env : Env V)

/-- An operation of a program; `none` when it throws. -/
def step (heap : List (Varray V)) : Op V → Option (List (Varray V) × Output V)
  | .literal vs => some (alloc heap (EvalArray.create vs))
  | .push a v => update heap a fun x => (EvalArray.push env.vnull x v).map fun (x, n) => (x, .int n)
  | .pop a => update heap a fun x => (EvalArray.pop env.vnull x).map fun (x, v) => (x, .value v)
  | .shift a => update heap a fun x => (EvalArray.shift env.vnull x).map fun (x, v) => (x, .value v)
  | .unshift a v => update heap a fun x => (EvalArray.unshift env.vnull x v).map fun x => (x, .void)
  | .insert a pos v => update heap a fun x => (StdArray.insert env.vnull x pos v).map fun x => (x, .void)
  | .remove a v => update heap a fun x => (EvalArray.remove env.vnull x env.equals v).map fun (x, b) => (x, .bool b)
  | .splice a pos len =>
    (update heap a fun x => StdArray.splice x pos len).map fun (heap, y) => alloc heap y
  | .slice a pos end' => do
    return alloc heap (← StdArray.slice (← heap[a]?) pos end')
  | .concat a b => do
    return alloc heap (← EvalArray.concat env.vnull (← heap[a]?) (← heap[b]?))
  | .reverse a => update heap a fun x => (EvalArray.reverse x).map fun x => (x, .void)
  | .resize a len => update heap a fun x => (EvalArray.resize env.vnull x len).map fun x => (x, .void)
  -- "Negative array index"
  | .set a i v => if i < 0 then none else
    update heap a fun x => (EvalArray.set env.vnull x i.toNat v).map fun x => (x, .value v)
  | .get a i => do
    return (heap, .value (EvalArray.get env.vnull (← heap[a]?) i))
  | .sort a f => update heap a fun x => (EvalArray.sort env.arraySort x f).map fun x => (x, .void)
  | .copy a => do
    return alloc heap (← EvalArray.copy (← heap[a]?))

end EvilHaxe.Eval

/-! What the operations on arrays are for: the same programs on lists. A write past the end fills up with null. -/

namespace EvilHaxe.Eval

variable {V : Type}

/-! ## Lists -/

namespace ListArray

/-- A position of a list of that length: a negative one counts from the end, and is 0 before the start. -/
def place (length : Nat) (pos : Int) : Nat := if 0 ≤ pos then pos.toNat else length - (-pos).toNat

variable (vnull : V)

def get (l : List V) (i : Int) : V := if i < 0 then vnull else l.getD i.toNat vnull

def set (l : List V) (i : Nat) (v : V) : List V :=
  if i < l.length then l.set i v else l ++ List.replicate (i - l.length) vnull ++ [v]

def resize (l : List V) (len : Nat) : List V := l.take len ++ List.replicate (len - l.length) vnull

def insert (l : List V) (pos : Int) (v : V) : List V :=
  let pos := place l.length pos
  l.take pos ++ v :: l.drop pos

def slice (l : List V) (pos : Int) (end' : Option Int) : List V :=
  let stop := (end'.map (place l.length)).getD l.length
  (l.take stop).drop (place l.length pos)

/-- What is left and what was taken out. -/
def splice (l : List V) (pos len : Int) : List V × List V :=
  if len < 0 ∨ pos > l.length then (l, [])
  else
    let pos := place l.length pos
    (l.take pos ++ l.drop (pos + len.toNat), (l.drop pos).take len.toNat)

end ListArray

variable (env : Env V)

/-- An operation of a program on lists. -/
def listStep (heap : List (List V)) : Op V → Option (List (List V) × Output V)
  | .literal vs => some (alloc heap vs)
  | .push a v => update heap a fun l => some (l ++ [v], .int (l.length + 1))
  | .pop a => update heap a fun l => some (l.dropLast, .value (l.getLastD env.vnull))
  | .shift a => update heap a fun l => some (l.tail, .value (l.headD env.vnull))
  | .unshift a v => update heap a fun l => some (v :: l, .void)
  | .insert a pos v => update heap a fun l => some (ListArray.insert l pos v, .void)
  | .remove a v => update heap a fun l => some (l.eraseP (env.equals v), .bool (l.any (env.equals v)))
  | .splice a pos len =>
    (update heap a fun l => some (ListArray.splice l pos len)).map fun (heap, taken) => alloc heap taken
  | .slice a pos end' => do
    return alloc heap (ListArray.slice (← heap[a]?) pos end')
  | .concat a b => do
    return alloc heap ((← heap[a]?) ++ (← heap[b]?))
  | .reverse a => update heap a fun l => some (l.reverse, .void)
  | .resize a len => if len < 0 then none else
    update heap a fun l => some (ListArray.resize env.vnull l len.toNat, .void)
  | .set a i v => if i < 0 then none else
    update heap a fun l => some (ListArray.set env.vnull l i.toNat v, .value v)
  | .get a i => do
    return (heap, .value (ListArray.get env.vnull (← heap[a]?) i))
  | .sort a f => update heap a fun l => some (env.arraySort.sort f l, .void)
  | .copy a => do
    return alloc heap (← heap[a]?)

/-! ## Agreement -/

/-- What can be seen of an array is a list. -/
def Shows (a : Varray V) (l : List V) : Prop :=
  a.alength = l.length ∧ ∀ i : Int, EvalArray.get env.vnull a i = ListArray.get env.vnull l i

/-- A program sees the same on arrays as on lists: at any time all arrays, and at each operation what it returns. -/
def Agrees : List (Op V) → List (Varray V) → List (List V) → Prop
  | [], heap, lists => List.Forall₂ (Shows env) heap lists
  | op :: ops, heap, lists =>
    List.Forall₂ (Shows env) heap lists ∧
      match step env heap op, listStep env lists op with
      | some (heap', out), some (lists', out') => out = out' ∧ Agrees ops heap' lists'
      | none, none => True
      | _, _ => False

/-- A write at the index does not bring a slot into sight that has an element in it: there is no slot for the index,
or the ones before it are null. -/
def Unseen (a : Varray V) (i : Nat) : Prop :=
  i < a.avalues.length → ∀ j, a.alength ≤ j → j < i → a.avalues.getD j env.vnull = env.vnull

/-- Before the operation, the slots that it brings into sight are null. -/
def Clean (heap : List (Varray V)) : Op V → Prop
  | .set a i _ => ∀ x, heap[a]? = some x → Unseen env x i.toNat
  | .resize a len => ∀ x, heap[a]? = some x → Unseen env x (len - 1).toNat
  | _ => True

/-- All operations of a program are clean. -/
def CleanRun : List (Op V) → List (Varray V) → Prop
  | [], _ => True
  | op :: ops, heap =>
    Clean env heap op ∧
      match step env heap op with
      | some (heap', _) => CleanRun ops heap'
      | none => True

end EvilHaxe.Eval
