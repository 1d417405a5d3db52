/-
`haxe.ds.BalancedTree`: a search tree in which the heights of siblings may differ by two. A tree is `null` or a node, and
an access to a field of `null` raises.
-/
import Mathlib.Data.List.Basic

namespace EvilHaxe.Ds

inductive TreeNode (K V : Type) where
  | null
  | node (left : TreeNode K V) (key : K) (value : V) (right : TreeNode K V) (height : Int)
deriving DecidableEq

/-- What a method throws: the string `"Not_found"`, or an access to `null`. -/
inductive Thrown where
  | notFound
  | nullAccess
deriving DecidableEq

namespace TreeNode

variable {K V : Type}

def getHeight : TreeNode K V → Int
  | null => 0
  | node _ _ _ _ h => h

/-- `new TreeNode(l, k, v, r, h)`, where `-1` is the default of `h`. -/
def new (l : TreeNode K V) (k : K) (v : V) (r : TreeNode K V) (h : Int := -1) : TreeNode K V :=
  if h = -1 then node l k v r ((if l.getHeight > r.getHeight then l.getHeight else r.getHeight) + 1)
  else node l k v r h

def balance (l : TreeNode K V) (k : K) (v : V) (r : TreeNode K V) : Except Thrown (TreeNode K V) :=
  let hl := l.getHeight
  let hr := r.getHeight
  if hl > hr + 2 then
    match l with
    | null => .error .nullAccess
    | node ll lk lv lr _ =>
      if ll.getHeight ≥ lr.getHeight then .ok (new ll lk lv (new lr k v r))
      else
        match lr with
        | null => .error .nullAccess
        | node lrl lrk lrv lrr _ => .ok (new (new ll lk lv lrl) lrk lrv (new lrr k v r))
  else if hr > hl + 2 then
    match r with
    | null => .error .nullAccess
    | node rl rk rv rr _ =>
      if rr.getHeight > rl.getHeight then .ok (new (new l k v rl) rk rv rr)
      else
        match rl with
        | null => .error .nullAccess
        | node rll rlk rlv rlr _ => .ok (new (new l k v rll) rlk rlv (new rlr rk rv rr))
  else .ok (new l k v r ((if hl > hr then hl else hr) + 1))

def minBinding : TreeNode K V → Except Thrown (K × V)
  | null => .error .notFound
  | node null k v _ _ => .ok (k, v)
  | node (node ll lk lv lr lh) _ _ _ _ => minBinding (node ll lk lv lr lh)

def removeMinBinding : TreeNode K V → Except Thrown (TreeNode K V)
  | null => .error .nullAccess
  | node null _ _ r _ => .ok r
  | node (node ll lk lv lr lh) k v r _ => do balance (← removeMinBinding (node ll lk lv lr lh)) k v r

def merge (t1 t2 : TreeNode K V) : Except Thrown (TreeNode K V) :=
  match t1, t2 with
  | null, t2 => .ok t2
  | t1, null => .ok t1
  | t1, t2 => do
    let (k, v) ← minBinding t2
    balance t1 k v (← removeMinBinding t2)

variable (compare : K → K → Int)

def setLoop (k : K) (v : V) : TreeNode K V → Except Thrown (TreeNode K V)
  | null => .ok (new null k v null)
  | node l key value r h =>
    let c := compare k key
    if c = 0 then .ok (new l k v r h)
    else if c < 0 then do balance (← setLoop k v l) key value r
    else do balance l key value (← setLoop k v r)

def removeLoop (k : K) : TreeNode K V → Except Thrown (TreeNode K V)
  | null => .error .notFound
  | node l key value r _ =>
    let c := compare k key
    if c = 0 then merge l r
    else if c < 0 then do balance (← removeLoop k l) key value r
    else do balance l key value (← removeLoop k r)

def get (k : K) : TreeNode K V → Option V
  | null => none
  | node l key value r _ =>
    let c := compare k key
    if c = 0 then some value else if c < 0 then get k l else get k r

def exists' (k : K) : TreeNode K V → Bool
  | null => false
  | node l key _ r _ =>
    let c := compare k key
    if c = 0 then true else if c < 0 then exists' k l else exists' k r

/-- `remove`: the new root, and whether there was a binding. An exception that is no string is not caught. -/
def remove (k : K) (root : TreeNode K V) : Except Thrown (TreeNode K V × Bool) :=
  match removeLoop compare k root with
  | .ok root => .ok (root, true)
  | .error .notFound => .ok (root, false)
  | .error .nullAccess => .error .nullAccess

def keysLoop : TreeNode K V → List K → List K
  | null, acc => acc
  | node l key _ r _, acc => keysLoop r (keysLoop l acc ++ [key])

def keys (root : TreeNode K V) : List K := keysLoop root []

end TreeNode

/-! ## Runs -/

inductive Op (K V : Type) where
  | set (k : K) (v : V)
  | remove (k : K)

variable {K V : Type} (compare : K → K → Int)

def Op.run (root : TreeNode K V) : Op K V → Except Thrown (TreeNode K V)
  | .set k v => root.setLoop compare k v
  | .remove k => (·.1) <$> root.remove compare k

/-- The tree after a sequence of operations on a new one. -/
def runOps (ops : List (Op K V)) : Except Thrown (TreeNode K V) := ops.foldlM (Op.run compare) .null

end EvilHaxe.Ds
