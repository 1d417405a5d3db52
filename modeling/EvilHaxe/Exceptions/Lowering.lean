/-
Types of catch variables and the values that are thrown: what `exceptions.ml` asks of a type, and what `haxe.Exception`
and `haxe.ValueException` of the standard library do at run time.
-/
import Mathlib.Data.List.Basic

namespace EvilHaxe.Exceptions

abbrev Path := List String × String

def haxeExceptionTypePath : Path := (["haxe"], "Exception")

def valueExceptionTypePath : Path := (["haxe"], "ValueException")

/-! ## Classes -/

/-- What is read of a `tclass`. -/
inductive Class where
  | mk (clPath : Path) (clSuper : Option Class) (clImplements : List Class)

namespace Class

def clPath : Class → Path
  | mk path _ _ => path

def clSuper : Class → Option Class
  | mk _ super _ => super

def clImplements : Class → List Class
  | mk _ _ implements => implements

mutual

/-- Physical equality. A class is in one place only, so its parts tell it. -/
def same : Class → Class → Bool
  | mk path super implements, mk path' super' implements' =>
    path == path' && sameSuper super super' && sameAll implements implements'

def sameSuper : Option Class → Option Class → Bool
  | none, none => true
  | some cls, some cls' => cls.same cls'
  | _, _ => false

def sameAll : List Class → List Class → Bool
  | [], [] => true
  | cls :: rest, cls' :: rest' => cls.same cls' && sameAll rest rest'
  | _, _ => false

end

mutual

theorem same_iff : ∀ cls cls' : Class, cls.same cls' = true ↔ cls = cls'
  | mk path super implements, mk path' super' implements' => by
    simp [same, sameSuper_iff super super', sameAll_iff implements implements', and_assoc]

theorem sameSuper_iff : ∀ super super' : Option Class, sameSuper super super' = true ↔ super = super'
  | none, none => by simp [sameSuper]
  | some cls, some cls' => by simp [sameSuper, same_iff cls cls']
  | none, some _ | some _, none => by simp [sameSuper]

theorem sameAll_iff : ∀ all all' : List Class, sameAll all all' = true ↔ all = all'
  | [], [] => by simp [sameAll]
  | cls :: rest, cls' :: rest' => by simp [sameAll, same_iff cls cls', sameAll_iff rest rest']
  | [], _ :: _ | _ :: _, [] => by simp [sameAll]

end

instance : DecidableEq Class := fun cls cls' => decidable_of_iff _ (same_iff cls cls')

mutual

/-- `check` of `is_in_list`. -/
def check (lst : List Path) : Class → Bool
  | mk path super implements => lst.contains path || checkAll lst implements || checkSuper lst super

def checkSuper (lst : List Path) : Option Class → Bool
  | none => false
  | some cls => cls.check lst

def checkAll (lst : List Path) : List Class → Bool
  | [] => false
  | cls :: rest => cls.check lst || checkAll lst rest

end

mutual

/-- Whether an object of the class is an instance of `target`. -/
def instanceOf (target : Class) : Class → Bool
  | mk path super implements =>
    decide (mk path super implements = target) || anyInstanceOf target implements || superInstanceOf target super

def superInstanceOf (target : Class) : Option Class → Bool
  | none => false
  | some cls => instanceOf target cls

def anyInstanceOf (target : Class) : List Class → Bool
  | [] => false
  | cls :: rest => instanceOf target cls || anyInstanceOf target rest

end

/-- `is_haxe_exception_class ~check_parent:true`. -/
def isHaxeExceptionClass : Class → Bool
  | mk path none _ => path == haxeExceptionTypePath
  | mk path (some super) _ => path == haxeExceptionTypePath || super.isHaxeExceptionClass

@[simp] theorem instanceOf_self (cls : Class) : instanceOf cls cls = true := by
  cases cls with
  | mk path super implements => simp [instanceOf]

end Class

/-! ## Types -/

/-- A type, with its typedefs and monomorphs followed. `this` is what an abstract is over, none for a core type. -/
inductive Ty where
  | tDynamic
  | tInst (cls : Class)
  | tEnum (ePath : Path)
  | tAbstract (aPath : Path) (this : Option Ty)
  | tOther

namespace Ty

/-- `Abstract.follow_with_abstracts`. -/
def followWithAbstracts : Ty → Ty
  | tAbstract _ (some this) => this.followWithAbstracts
  | t => t

/-- `is_in_list`. -/
def isInList (t : Ty) (lst : List Path) : Bool :=
  match t.followWithAbstracts with
  | tInst _ =>
    match t with
    | tInst cls => cls.check lst
    | _ => false
  | tAbstract path _ | tEnum path => lst.contains path
  | _ => false

/-- `is_haxe_exception ~check_parent:true`. -/
def isHaxeException (t : Ty) : Bool :=
  match t.followWithAbstracts with
  | tInst cls => cls.isHaxeExceptionClass
  | _ => false

/-- `t == t_dynamic`. -/
def isTDynamic : Ty → Bool
  | tDynamic => true
  | _ => false

/-- `fast_eq`. -/
def fastEq : Ty → Ty → Bool
  | tDynamic, tDynamic => true
  | tInst cls, tInst cls' => decide (cls = cls')
  | tEnum path, tEnum path' => path == path'
  | tAbstract path _, tAbstract path' _ => path == path'
  | _, _ => false

end Ty

/-! ## Exceptions of the standard library -/

/-- `haxe.Exception` and `haxe.ValueException`. The bases of `haxe.Exception` are classes of the target. -/
structure HaxeClasses where
  haxeExceptionClass : Class
  valueExceptionClass : Class
  exception_path : haxeExceptionClass.clPath = haxeExceptionTypePath
  value_exception : valueExceptionClass = .mk valueExceptionTypePath (some haxeExceptionClass) []
  bases : ∀ cls, Class.instanceOf cls haxeExceptionClass = true → cls.isHaxeExceptionClass = true → cls = haxeExceptionClass

namespace HaxeClasses

variable (H : HaxeClasses)

theorem isHaxeExceptionClass_exception : H.haxeExceptionClass.isHaxeExceptionClass = true := by
  have h := H.exception_path
  cases hc : H.haxeExceptionClass with
  | mk path super implements =>
    rw [hc] at h
    cases super <;> simp_all [Class.isHaxeExceptionClass, Class.clPath]

theorem isHaxeExceptionClass_value : H.valueExceptionClass.isHaxeExceptionClass = true := by
  rw [H.value_exception, Class.isHaxeExceptionClass, H.isHaxeExceptionClass_exception, Bool.or_true]

theorem value_ne : H.valueExceptionClass ≠ H.haxeExceptionClass := by
  intro h
  have h1 := congrArg Class.clPath h
  rw [H.exception_path, H.value_exception] at h1
  simp [Class.clPath, valueExceptionTypePath, haxeExceptionTypePath] at h1

theorem value_instanceOf_exception : Class.instanceOf H.haxeExceptionClass H.valueExceptionClass = true := by
  rw [H.value_exception]
  simp [Class.instanceOf, Class.superInstanceOf]

theorem exception_not_value : Class.instanceOf H.valueExceptionClass H.haxeExceptionClass = false := by
  rw [Bool.eq_false_iff]
  exact fun h => H.value_ne (H.bases _ h H.isHaxeExceptionClass_value)

/-- What a `haxe.ValueException` made by the library is, of the haxe exceptions. -/
theorem of_value_instanceOf {cls : Class} (h : Class.instanceOf cls H.valueExceptionClass = true)
    (hx : cls.isHaxeExceptionClass = true) : cls = H.valueExceptionClass ∨ cls = H.haxeExceptionClass := by
  have h1 := H.value_exception
  rw [h1] at h
  simp only [Class.instanceOf, Class.anyInstanceOf, Class.superInstanceOf, Bool.or_false, Bool.or_eq_true,
    decide_eq_true_eq] at h
  rcases h with h | h
  · exact .inl (by rw [h1, h])
  · exact .inr (H.bases cls h hx)

end HaxeClasses

/-- A value at run time. What is not a `haxe.Exception` comes from the target. -/
inductive Value (H : HaxeClasses) (α : Type) where
  | plain (a : α)
  | exception (cls : Class) (isException : Class.instanceOf H.haxeExceptionClass cls = true)
    (notValue : Class.instanceOf H.valueExceptionClass cls = false) (native : Option (Value H α))
  | valueException (cls : Class) (isException : Class.instanceOf H.haxeExceptionClass cls = true)
    (isValue : Class.instanceOf H.valueExceptionClass cls = true) (value : Value H α) (native : Option (Value H α))

/-- The target: the type test on its own values, and which of them are its native errors. -/
structure Target (α : Type) where
  isOfType : α → Ty → Bool
  nativeError : α → Bool
  not_haxe_exception : ∀ a t, t.isHaxeException = true → isOfType a t = false
  followed : ∀ a t, isOfType a t.followWithAbstracts = isOfType a t

namespace Value

variable {H : HaxeClasses} {α : Type} (R : Target α)

/-- `Std.isOfType` on an object of a class. -/
def objectIs (cls : Class) (t : Ty) : Bool :=
  match t.followWithAbstracts with
  | .tDynamic => true
  | .tInst target => Class.instanceOf target cls
  | _ => false

/-- `Std.isOfType`, and what a native catch of the type accepts. -/
def isOfType : Value H α → Ty → Bool
  | plain a, t => R.isOfType a t
  | exception cls _ _ _, t | valueException cls _ _ _ _, t => objectIs cls t

/-- `haxe.Exception.caught`. -/
def caught : Value H α → Value H α
  | plain a =>
    if R.nativeError a then
      exception H.haxeExceptionClass (Class.instanceOf_self _) H.exception_not_value (some (plain a))
    else
      valueException H.valueExceptionClass H.value_instanceOf_exception (Class.instanceOf_self _) (plain a) (some (plain a))
  | v => v

/-- `unwrap` of a `haxe.Exception`: `__nativeException`, or the value. -/
def unwrap : Value H α → Value H α
  | valueException _ _ _ value _ => value
  | exception _ _ _ (some native) => native
  | v => v

/-- The field `value` of a `haxe.ValueException`. -/
def value : Value H α → Option (Value H α)
  | valueException _ _ _ value _ => some value
  | _ => none

def isValueException : Value H α → Bool
  | valueException .. => true
  | _ => false

end Value

/-! The lowering of `catch` clauses: `catches_to_ifs`, `catches_as_value_exception` and `catch_native` of `exceptions.ml`,
and what the catches they make do with a thrown value. -/

/-! ## Catches and the code made of them -/

/-- A catch of the user. `used` is what `is_var_used` says of its variable and its body. -/
structure Catch where
  v : Nat
  vType : Ty
  used : Bool
  body : Nat

/-- A local variable: of a user's catch, or one that `alloc_var` makes. -/
inductive Local where
  | user (v : Nat)
  | catchVar
  | hxException
  | unwrapped
  deriving DecidableEq

/-- The values the generated code computes. -/
inductive Operand where
  | tLocal (x : Local)
  | caught (e : Operand)
  | unwrap (e : Operand)
  | fieldValue (e : Operand)
  | tCast (e : Operand) (t : Ty)

inductive Condition where
  | tBool (b : Bool)
  | isOfType (e : Operand) (t : Ty)

/-- The generated code. A block is its declarations and its last expression. -/
inductive Code where
  | body (c : Catch)
  | tBlock (vars : List (Local × Operand)) (last : Code)
  | tIf (cond : Condition) (thenBody elseBody : Code)
  | tThrow (e : Operand)

/-- A catch that the target generator gets. -/
structure NativeCatch where
  var : Local
  type : Ty
  code : Code

/-! ## Configuration -/

/-- What is read of the context. The wildcard type is a native class or interface, or `Dynamic`; a target that catches
anything does so with `Dynamic`. -/
structure Context where
  H : HaxeClasses
  nativeCatches : List Path
  wildcardCatchType : Ty
  catchesAnything : Bool
  wildcard_native : wildcardCatchType = .tDynamic ∨ ∃ cls, wildcardCatchType = .tInst cls
  anything_dynamic : catchesAnything = true → wildcardCatchType = .tDynamic

namespace Context

variable (ctx : Context)

def haxeExceptionType : Ty := .tInst ctx.H.haxeExceptionClass

def valueExceptionType : Ty := .tInst ctx.H.valueExceptionClass

def isNativeCatch (t : Ty) : Bool := ctx.catchesAnything || t.isInList ctx.nativeCatches

def isHaxeWildcardCatch (t : Ty) : Bool :=
  t.followWithAbstracts.isTDynamic || ctx.haxeExceptionType.fastEq t.followWithAbstracts

/-- `fast_eq ctx.value_exception_type (Abstract.follow_with_abstracts t)`. -/
def isValueCatch (t : Ty) : Bool := ctx.valueExceptionType.fastEq t.followWithAbstracts

end Context

/-! ## The chain of tests -/

/-- The object `catch`: which of its two variables are made. -/
structure CatchVars where
  hxExceptionVar : Bool
  unwrappedVar : Bool

def CatchVars.getHaxeException (vars : CatchVars) : Operand × CatchVars :=
  (.tLocal .hxException, { vars with hxExceptionVar := true })

def CatchVars.unwrap (vars : CatchVars) : Operand × CatchVars :=
  (.tLocal .unwrapped, { vars with unwrappedVar := true })

def CatchVars.declareHaxeException (vars : CatchVars) : List (Local × Operand) :=
  if vars.hxExceptionVar then [(.hxException, .caught (.tLocal .catchVar))] else []

def CatchVars.declareUnwrap (vars : CatchVars) : List (Local × Operand) × CatchVars :=
  if vars.unwrappedVar then
    let (e, vars) := vars.getHaxeException
    ([(.unwrapped, .unwrap e)], vars)
  else
    ([], vars)

/-- The test and the body for one catch, `condition` and `body` of `transform`. -/
def condition (ctx : Context) (c : Catch) (vars : CatchVars) : Condition × CatchVars :=
  let currentT := c.vType.followWithAbstracts
  if currentT.isHaxeException then
    if ctx.haxeExceptionType.fastEq currentT then
      (.tBool true, vars)
    else
      let (e, vars) := vars.getHaxeException
      (.isOfType e c.vType, vars)
  else if currentT.isTDynamic then
    (.tBool true, vars)
  else if ctx.wildcardCatchType.fastEq currentT then
    (.tBool true, vars)
  else
    let (e, vars) := vars.unwrap
    (.isOfType e c.vType, vars)

def catchBody (ctx : Context) (c : Catch) (vars : CatchVars) : Code × CatchVars :=
  let currentT := c.vType.followWithAbstracts
  if currentT.isHaxeException then
    if c.used then
      let (e, vars) := vars.getHaxeException
      (.tBlock [(.user c.v, .tCast e c.vType)] (.body c), vars)
    else
      (.body c, vars)
  else if currentT.isTDynamic then
    if c.used then
      if ctx.catchesAnything then
        (.tBlock [(.user c.v, .tLocal .catchVar)] (.body c), vars)
      else
        let (e, vars) := vars.unwrap
        (.tBlock [(.user c.v, e)] (.body c), vars)
    else
      (.tBlock [] (.body c), vars)
  else if ctx.wildcardCatchType.fastEq currentT then
    if c.used then
      (.tBlock [(.user c.v, .tLocal .catchVar)] (.body c), vars)
    else
      (.tBlock [] (.body c), vars)
  else
    if c.used then
      let (e, vars) := vars.unwrap
      (.tBlock [(.user c.v, .tCast e c.vType)] (.body c), vars)
    else
      (.tBlock [] (.body c), vars)

/-- `transform` of `catches_to_ifs`, with `compose`. -/
def transform (ctx : Context) : List Catch → CatchVars → Code × CatchVars
  | [], vars => (.tThrow (.tLocal .catchVar), vars)
  | c :: rest, vars =>
    let (cond, vars) := condition ctx c vars
    let (body, vars) := catchBody ctx c vars
    let (elseBody, vars) := transform ctx rest vars
    (.tIf cond body elseBody, vars)

/-- `catches_to_ifs`. The elements of `exprs` are evaluated from the last one: `declare_unwrap` makes the variable that
`declare_haxe_exception` declares before it. -/
def catchesToIfs (ctx : Context) : List Catch → List NativeCatch
  | [] => []
  | catches =>
    let (transformedCatches, vars) := transform ctx catches ⟨false, false⟩
    let (unwrapVar, vars) := vars.declareUnwrap
    [⟨.catchVar, ctx.wildcardCatchType, .tBlock (vars.declareHaxeException ++ unwrapVar) transformedCatches⟩]

/-! ## Catches of `haxe.ValueException` -/

/-- `traverse` of `catches_as_value_exception`. -/
def traverse (catchLocal : Operand) (finalElse : Code) : List Catch → Code
  | [] => finalElse
  | c :: rest =>
    let body := .tBlock (if c.used then [(.user c.v, .tCast (.fieldValue catchLocal) c.vType)] else []) (.body c)
    .tIf (.isOfType (.fieldValue catchLocal) c.vType) body (traverse catchLocal finalElse rest)

/-- `catches_as_value_exception`. It dies when it is given nothing. -/
def catchesAsValueException (ctx : Context) (nonValueExceptionCatches : List Catch) (valueExceptionCatch : Option Catch) :
    Option NativeCatch :=
  match nonValueExceptionCatches, valueExceptionCatch with
  | [], none => none
  | [], some c => some ⟨.user c.v, c.vType, .body c⟩
  | cs@(_ :: _), some c => some ⟨.user c.v, c.vType, traverse (.tLocal (.user c.v)) (.body c) cs⟩
  | cs@(_ :: _), none =>
    some ⟨.catchVar, ctx.valueExceptionType, traverse (.tLocal .catchVar) (.tThrow (.tLocal .catchVar)) cs⟩

/-! ## `catch_native` -/

/-- `transform` of `catch_native`. -/
def transformNative (ctx : Context) (handleAsValueException : List Catch) (valueExceptionCatch : Option Catch) :
    List Catch → List NativeCatch
  | [] =>
    match handleAsValueException, valueExceptionCatch with
    | [], none => []
    | [], some c => catchesToIfs ctx [c]
    | _, _ =>
      (catchesAsValueException ctx handleAsValueException none).toList
        ++ (valueExceptionCatch.map fun c => catchesToIfs ctx [c]).getD []
  | current :: rest =>
    if ctx.isHaxeWildcardCatch current.vType then
      match handleAsValueException, valueExceptionCatch with
      | [], none => catchesToIfs ctx (current :: rest)
      | [], some c => catchesToIfs ctx (c :: current :: rest)
      | _, _ =>
        (catchesAsValueException ctx handleAsValueException none).toList ++ catchesToIfs ctx (current :: rest)
    else if ctx.catchesAnything && ctx.isValueCatch current.vType then
      (catchesAsValueException ctx handleAsValueException (some current)).toList
        ++ transformNative ctx [] (some (valueExceptionCatch.getD current)) rest
    else if ctx.isNativeCatch current.vType then
      let handleAsValueException :=
        if ctx.catchesAnything && !current.vType.isHaxeException then
          current :: handleAsValueException
        else
          handleAsValueException
      ⟨.user current.v, current.vType, .body current⟩ :: transformNative ctx handleAsValueException valueExceptionCatch rest
    else
      catchesToIfs ctx (handleAsValueException ++ current :: rest)

/-- `catch_native`. -/
def catchNative (ctx : Context) (catches : List Catch) : List NativeCatch :=
  transformNative ctx [] none catches

/-! ## What the catches do -/

section

variable {H : HaxeClasses} {α : Type} (R : Target α)

/-- What becomes of a thrown value: a body runs with what its variable is bound to, or a value is thrown again. -/
inductive Outcome (H : HaxeClasses) (α : Type) where
  | ran (c : Catch) (bound : Option (Value H α))
  | thrown (v : Value H α)
  | stuck

abbrev Env (H : HaxeClasses) (α : Type) := Local → Option (Value H α)

def Env.set (env : Env H α) (x : Local) (v : Option (Value H α)) : Env H α :=
  fun y => if y = x then v else env y

def Operand.eval (env : Env H α) : Operand → Option (Value H α)
  | tLocal x => env x
  | caught e => (e.eval env).map (Value.caught R)
  | unwrap e => (e.eval env).map Value.unwrap
  | fieldValue e => (e.eval env).bind Value.value
  | tCast e _ => e.eval env

def Condition.eval (env : Env H α) : Condition → Option Bool
  | tBool b => some b
  | isOfType e t => (e.eval R env).map (Value.isOfType R · t)

def declare (env : Env H α) : List (Local × Operand) → Env H α
  | [] => env
  | (x, e) :: rest => declare (env.set x (e.eval R env)) rest

def Code.eval (env : Env H α) : Code → Outcome H α
  | body c => .ran c (if c.used then env (.user c.v) else none)
  | tBlock vars last => last.eval (declare R env vars)
  | tIf cond thenBody elseBody =>
    match cond.eval R env with
    | some true => thenBody.eval env
    | some false => elseBody.eval env
    | none => .stuck
  | tThrow e =>
    match e.eval R env with
    | some v => .thrown v
    | none => .stuck

/-- A thrown value and the catches of a `try`: the first one of its type runs. -/
def runCatches (v : Value H α) : List NativeCatch → Outcome H α
  | [] => .thrown v
  | c :: rest => if v.isOfType R c.type then c.code.eval R (Env.set (fun _ => none) c.var (some v)) else runCatches v rest

end

end EvilHaxe.Exceptions
