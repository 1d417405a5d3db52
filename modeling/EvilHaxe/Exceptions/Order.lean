/-
The order of catches through the lowering. The catches that `catch_native` makes run the body of the first catch of the
user that accepts the thrown value, exactly when that catch is not passed over on the way to it.
-/
import EvilHaxe.Exceptions.Lowering
import Mathlib.Tactic

namespace EvilHaxe.Exceptions

variable {H : HaxeClasses} {α : Type}

/-! ## Types of catches -/

@[simp] theorem Ty.followWithAbstracts_idem : ∀ t : Ty, t.followWithAbstracts.followWithAbstracts = t.followWithAbstracts
  | .tDynamic | .tInst _ | .tEnum _ | .tAbstract _ none | .tOther => rfl
  | .tAbstract _ (some this) => this.followWithAbstracts_idem

@[simp] theorem Ty.isHaxeException_follow (t : Ty) : t.followWithAbstracts.isHaxeException = t.isHaxeException := by
  rw [isHaxeException, followWithAbstracts_idem, isHaxeException]

theorem Ty.isTDynamic_iff {t : Ty} : t.isTDynamic = true ↔ t = .tDynamic := by
  cases t <;> simp [isTDynamic]

theorem Ty.inst_fastEq_iff {cls : Class} {t : Ty} : (Ty.tInst cls).fastEq t = true ↔ t = .tInst cls := by
  cases t <;> simp [fastEq, eq_comm]

namespace Context

variable (ctx : Context)

theorem isValueCatch_iff {t : Ty} : ctx.isValueCatch t = true ↔ t.followWithAbstracts = .tInst ctx.H.valueExceptionClass :=
  Ty.inst_fastEq_iff

theorem isHaxeException_valueCatch {t : Ty} (h : ctx.isValueCatch t = true) : t.isHaxeException = true := by
  rw [Ty.isHaxeException, ctx.isValueCatch_iff.1 h]
  exact ctx.H.isHaxeExceptionClass_value

theorem not_wildcard_valueCatch {t : Ty} (h : ctx.isValueCatch t = true) : ctx.isHaxeWildcardCatch t = false := by
  rw [Context.isHaxeWildcardCatch, ctx.isValueCatch_iff.1 h, Context.haxeExceptionType, Ty.fastEq]
  simpa [Ty.isTDynamic] using Ne.symm ctx.H.value_ne

end Context

namespace Value

variable (R : Target α) {v : Value H α} {t : Ty}

theorem isOfType_follow (v : Value H α) (t : Ty) : v.isOfType R t.followWithAbstracts = v.isOfType R t := by
  cases v with
  | plain a => exact R.followed a t
  | exception | valueException => simp [isOfType, objectIs]

theorem isOfType_inst {cls : Class} (h : t.followWithAbstracts = .tInst cls) :
    v.isOfType R t = v.isOfType R (.tInst cls) := by
  rw [← isOfType_follow, h]

/-- `Std.isOfType(v, haxe.ValueException)`. -/
theorem isOfType_value (v : Value H α) : v.isOfType R (.tInst H.valueExceptionClass) = v.isValueException := by
  cases v with
  | plain a => exact R.not_haxe_exception a _ H.isHaxeExceptionClass_value
  | exception cls hx hv native => exact hv
  | valueException cls hx hv value native => exact hv

/-- Only a `haxe.Exception` has a type of them. -/
theorem caught_of_isOfType (ht : t.isHaxeException = true) (h : v.isOfType R t = true) : v.caught R = v := by
  cases v with
  | plain a => rw [isOfType, R.not_haxe_exception a t ht] at h; cases h
  | exception | valueException => rfl

end Value

/-! ## First match -/

section Picks

variable (ctx : Context) (R : Target α) (v : Value ctx.H α)

/-- The value originally thrown is of the type of the catch. -/
def originallyOf (c : Catch) : Bool := (v.caught R).unwrap.isOfType R c.vType

/-- A catch accepts a value that is of its type, or whose haxe exception is, or the value originally thrown. -/
def accepts (c : Catch) : Bool :=
  ctx.isHaxeWildcardCatch c.vType || v.isOfType R c.vType ||
    (c.vType.isHaxeException && (v.caught R).isOfType R c.vType) || originallyOf ctx R v c

/-- What the variable of the catch may be bound to: the haxe exception for a type of them, otherwise the value or what it
unwraps to, whichever has the type. -/
def Binds (c : Catch) (w : Value ctx.H α) : Prop :=
  if c.vType.isHaxeException then w = v.caught R
  else (w = v ∨ w = (v.caught R).unwrap) ∧ (c.vType.followWithAbstracts = .tDynamic ∨ w.isOfType R c.vType = true)

/-- The body of the catch runs, with its variable bound when it is used. -/
def Runs (c : Catch) (out : Outcome ctx.H α) : Prop :=
  ∃ bound, out = .ran c bound ∧ (c.used = true → ∃ w, bound = some w ∧ Binds ctx R v c w)

/-- A body runs, or the value is thrown again. -/
def Picks : Option Catch → Outcome ctx.H α → Prop
  | some c, out => Runs ctx R v c out
  | none, out => out = .thrown v

/-- The body of the first catch that accepts the value runs. -/
def FirstMatch (catches : List Catch) (out : Outcome ctx.H α) : Prop :=
  Picks ctx R v (catches.find? (accepts ctx R v)) out

/-! ## What the lowered catches pick -/

/-- The condition for a catch in the chain of tests. -/
def ifAccepts (c : Catch) : Bool :=
  if c.vType.isHaxeException then
    ctx.haxeExceptionType.fastEq c.vType.followWithAbstracts || (v.caught R).isOfType R c.vType
  else
    c.vType.followWithAbstracts.isTDynamic || ctx.wildcardCatchType.fastEq c.vType.followWithAbstracts ||
      originallyOf ctx R v c

/-- The catch that the chain made by `catch_native` gets to. -/
def pick (handle : List Catch) (valueCatch : Option Catch) : List Catch → Option Catch
  | [] =>
    if handle ≠ [] ∧ v.isValueException = true then handle.find? (originallyOf ctx R v)
    else valueCatch.toList.find? (ifAccepts ctx R v)
  | c :: rest =>
    if ctx.isHaxeWildcardCatch c.vType then
      if handle = [] then (valueCatch.toList ++ c :: rest).find? (ifAccepts ctx R v)
      else if v.isValueException then handle.find? (originallyOf ctx R v)
      else (c :: rest).find? (ifAccepts ctx R v)
    else if ctx.catchesAnything && ctx.isValueCatch c.vType then
      if v.isOfType R c.vType then some ((handle.find? (originallyOf ctx R v)).getD c)
      else pick [] (some (valueCatch.getD c)) rest
    else if ctx.isNativeCatch c.vType then
      if v.isOfType R c.vType then some c
      else pick (if ctx.catchesAnything && !c.vType.isHaxeException then c :: handle else handle) valueCatch rest
    else (handle ++ c :: rest).find? (ifAccepts ctx R v)

end Picks

/-! ## The chain of tests -/

namespace CatchVars

def le (vars vars' : CatchVars) : Prop :=
  (vars.hxExceptionVar = true → vars'.hxExceptionVar = true) ∧ (vars.unwrappedVar = true → vars'.unwrappedVar = true)

theorem le_refl (vars : CatchVars) : vars.le vars := ⟨id, id⟩

theorem le_trans {a b c : CatchVars} (h : a.le b) (h' : b.le c) : a.le c := ⟨h'.1 ∘ h.1, h'.2 ∘ h.2⟩

end CatchVars

section Ifs

variable {ctx : Context} {R : Target α} {v : Value ctx.H α} {vars : CatchVars} {env : Env ctx.H α}

/-- The variables made so far are declared. -/
structure Declared (R : Target α) (v : Value ctx.H α) (env : Env ctx.H α) (vars : CatchVars) : Prop where
  catchVar : env .catchVar = some v
  hxException : vars.hxExceptionVar = true → env .hxException = some (v.caught R)
  unwrapped : vars.unwrappedVar = true → env .unwrapped = some (v.caught R).unwrap

theorem Declared.mono {vars' : CatchVars} (h : Declared R v env vars') (hle : vars.le vars') : Declared R v env vars :=
  ⟨h.catchVar, fun h' => h.hxException (hle.1 h'), fun h' => h.unwrapped (hle.2 h')⟩

theorem condition_le (c : Catch) (vars : CatchVars) : vars.le (condition ctx c vars).2 := by
  simp only [condition, CatchVars.getHaxeException, CatchVars.unwrap]
  split_ifs <;> simp [CatchVars.le]

theorem catchBody_le (c : Catch) (vars : CatchVars) : vars.le (catchBody ctx c vars).2 := by
  simp only [catchBody, CatchVars.getHaxeException, CatchVars.unwrap]
  split_ifs <;> simp [CatchVars.le]

theorem transform_le : ∀ (cs : List Catch) (vars : CatchVars), vars.le (transform ctx cs vars).2
  | [], vars => vars.le_refl
  | c :: rest, vars =>
    CatchVars.le_trans (CatchVars.le_trans (condition_le c vars) (catchBody_le c _)) (transform_le rest _)

theorem condition_eval {c : Catch} (h : Declared R v env (condition ctx c vars).2) :
    (condition ctx c vars).1.eval R env = some (ifAccepts ctx R v c) := by
  simp only [condition, CatchVars.getHaxeException, CatchVars.unwrap, Ty.isHaxeException_follow] at *
  unfold ifAccepts
  split_ifs at * with h1 h2 h3 h4
  · simp [Condition.eval, h2]
  · simp [Condition.eval, Operand.eval, h.hxException rfl, h2]
  · simp [Condition.eval, h3]
  · simp [Condition.eval, h4]
  · simp [Condition.eval, Operand.eval, h.unwrapped rfl, h3, h4, originallyOf]

/-- The body of a catch after the declaration of its variable. -/
theorem eval_declared {c : Catch} {e : Operand} {w : Value ctx.H α} (he : e.eval R env = some w) (hb : Binds ctx R v c w) :
    Runs ctx R v c ((Code.tBlock [(.user c.v, e)] (.body c)).eval R env) := by
  refine ⟨_, rfl, fun hu => ⟨w, ?_, hb⟩⟩
  simp [hu, declare, Env.set, he]

theorem eval_unused {c : Catch} (hu : c.used = false) (env : Env ctx.H α) : Runs ctx R v c ((Code.body c).eval R env) :=
  ⟨_, rfl, fun h => absurd h (by simp [hu])⟩

theorem catchBody_eval {c : Catch} (hv : v.isOfType R ctx.wildcardCatchType = true)
    (ha : ifAccepts ctx R v c = true) (h : Declared R v env (catchBody ctx c vars).2) :
    Runs ctx R v c ((catchBody ctx c vars).1.eval R env) := by
  simp only [catchBody, CatchVars.getHaxeException, CatchVars.unwrap, Ty.isHaxeException_follow] at *
  unfold ifAccepts at ha
  by_cases hu : c.used = true
  · simp only [hu, if_true] at *
    split_ifs at * with h1 h2 h3 h4
    · exact eval_declared (h.hxException rfl) (by rw [Binds, if_pos h1])
    · refine eval_declared h.catchVar ?_
      rw [Binds, if_neg h1]
      exact ⟨.inl rfl, .inl (Ty.isTDynamic_iff.1 h2)⟩
    · refine eval_declared (h.unwrapped rfl) ?_
      rw [Binds, if_neg h1]
      exact ⟨.inr rfl, .inl (Ty.isTDynamic_iff.1 h2)⟩
    · refine eval_declared h.catchVar ?_
      rw [Binds, if_neg h1]
      refine ⟨.inl rfl, .inr ?_⟩
      rcases ctx.wildcard_native with hw | ⟨cls, hw⟩
      · rw [hw] at h4
        cases hc : c.vType.followWithAbstracts <;> simp_all [Ty.fastEq, Ty.isTDynamic]
      · rw [hw] at h4 hv
        rw [Value.isOfType_inst R (Ty.inst_fastEq_iff.1 h4), hv]
    · refine eval_declared (h.unwrapped rfl) ?_
      rw [Binds, if_neg h1]
      refine ⟨.inr rfl, .inr ?_⟩
      simpa [h2, h4, originallyOf] using ha
  · rw [Bool.not_eq_true] at hu
    simp only [hu, Bool.false_eq_true, if_false]
    split_ifs <;> exact eval_unused hu _

/-- The chain of tests gets to the first catch whose condition holds. -/
theorem transform_eval (hv : v.isOfType R ctx.wildcardCatchType = true) :
    ∀ (cs : List Catch) (vars : CatchVars), Declared R v env (transform ctx cs vars).2 →
      Picks ctx R v (cs.find? (ifAccepts ctx R v)) ((transform ctx cs vars).1.eval R env)
  | [], vars, h => by simp [transform, Code.eval, Operand.eval, h.catchVar, Picks]
  | c :: rest, vars, h => by
    have h2 := h.mono (@transform_le ctx rest _)
    have h1 := h2.mono (catchBody_le c _)
    simp only [transform, Code.eval, condition_eval h1]
    cases ha : ifAccepts ctx R v c with
    | true =>
      rw [List.find?_cons_of_pos ha]
      exact catchBody_eval hv ha h2
    | false =>
      rw [List.find?_cons_of_neg (by simp [ha])]
      exact transform_eval hv rest _ h

/-- The declarations before the chain are those of the variables it uses. -/
theorem declared_block (vars : CatchVars) :
    Declared R v (declare R (Env.set (fun _ => none) .catchVar (some v))
      (vars.declareUnwrap.2.declareHaxeException ++ vars.declareUnwrap.1)) vars := by
  obtain ⟨hx, un⟩ := vars
  cases hx <;> cases un <;>
    constructor <;>
    simp [CatchVars.declareUnwrap, CatchVars.declareHaxeException, CatchVars.getHaxeException, declare, Env.set, Operand.eval]

theorem catchesToIfs_eval (hv : v.isOfType R ctx.wildcardCatchType = true) (cs : List Catch) :
    Picks ctx R v (cs.find? (ifAccepts ctx R v)) (runCatches R v (catchesToIfs ctx cs)) := by
  cases cs with
  | nil => rfl
  | cons c rest =>
    simp only [catchesToIfs, runCatches, hv, if_true, Code.eval]
    exact transform_eval hv _ _ (declared_block _)

/-! ## Catches of `haxe.ValueException` -/

theorem value_eq (h : v.isValueException = true) : v.value = some (v.caught R).unwrap := by
  cases v with
  | valueException => rfl
  | plain | exception => cases h

/-- The body of a catch among the tests on the field `value`. -/
def asBody (x : Local) (c : Catch) : Code :=
  .tBlock (if c.used then [(.user c.v, .tCast (.fieldValue (.tLocal x)) c.vType)] else []) (.body c)

/-- The tests on the field `value` get to the first catch of its type. -/
theorem traverse_eval {x : Local} {finalElse : Code} (hx : env x = some v) (h : v.isValueException = true) :
    ∀ cs : List Catch, (traverse (.tLocal x) finalElse cs).eval R env =
      match cs.find? (originallyOf ctx R v) with
      | some c => (asBody x c).eval R env
      | none => finalElse.eval R env
  | [] => rfl
  | c :: rest => by
    have hcond : (Condition.isOfType (.fieldValue (.tLocal x)) c.vType).eval R env = some (originallyOf ctx R v c) := by
      simp [Condition.eval, Operand.eval, hx, value_eq (R := R) h, originallyOf]
    rw [traverse, Code.eval, hcond]
    cases ha : originallyOf ctx R v c with
    | true =>
      rw [List.find?_cons_of_pos ha]
      rfl
    | false =>
      rw [List.find?_cons_of_neg (by simp [ha])]
      exact traverse_eval hx h rest

theorem asBody_runs {x : Local} {c : Catch} (hx : env x = some v) (h : v.isValueException = true)
    (hc : c.vType.isHaxeException = false) (ha : originallyOf ctx R v c = true) :
    Runs ctx R v c ((asBody x c).eval R env) := by
  refine ⟨_, rfl, fun hu => ⟨(v.caught R).unwrap, ?_, ?_⟩⟩
  · simp [hu, declare, Env.set, Operand.eval, hx, value_eq (R := R) h]
  · rw [Binds, if_neg (by simp [hc])]
    exact ⟨.inr rfl, .inr ha⟩

theorem binds_of_isOfType {c : Catch} (h : v.isOfType R c.vType = true) : Binds ctx R v c v := by
  unfold Binds
  split_ifs with hx
  · exact (Value.caught_of_isOfType R hx h).symm
  · exact ⟨.inl rfl, .inr h⟩

theorem isOfType_valueCatch {c : Catch} (hc : ctx.isValueCatch c.vType = true) :
    v.isOfType R c.vType = v.isValueException := by
  rw [Value.isOfType_inst R (ctx.isValueCatch_iff.1 hc), Value.isOfType_value]

/-- A catch left as it is. -/
theorem runCatches_user {c : Catch} (rest : List NativeCatch) (h : v.isOfType R c.vType = true) :
    Runs ctx R v c (runCatches R v (⟨.user c.v, c.vType, .body c⟩ :: rest)) := by
  simp only [runCatches, h, if_true, Code.eval]
  exact ⟨_, rfl, fun hu => ⟨v, by simp [hu, Env.set], binds_of_isOfType h⟩⟩

theorem asValueException_some {handle : List Catch} {c : Catch} (hc : ctx.isValueCatch c.vType = true)
    (hh : ∀ x ∈ handle, x.vType.isHaxeException = false) (rest : List NativeCatch) (h : v.isOfType R c.vType = true) :
    Runs ctx R v ((handle.find? (originallyOf ctx R v)).getD c)
      (runCatches R v ((catchesAsValueException ctx handle (some c)).toList ++ rest)) := by
  cases handle with
  | nil => exact runCatches_user rest h
  | cons x handle =>
    have hv : v.isValueException = true := (isOfType_valueCatch hc).symm.trans h
    have henv : (Env.set (fun _ => none) (.user c.v) (some v) : Env ctx.H α) (.user c.v) = some v := by simp [Env.set]
    simp only [catchesAsValueException, Option.toList_some, List.singleton_append, runCatches, h, if_true]
    rw [traverse_eval henv hv]
    cases hf : (x :: handle).find? (originallyOf ctx R v) with
    | some d => exact asBody_runs henv hv (hh d (List.mem_of_find?_eq_some hf)) (List.find?_some hf)
    | none => exact ⟨_, rfl, fun hu => ⟨v, (if_pos hu).trans henv, binds_of_isOfType h⟩⟩

theorem asValueException_none {handle : List Catch} (hne : handle ≠ [])
    (hh : ∀ x ∈ handle, x.vType.isHaxeException = false) (rest : List NativeCatch) (h : v.isValueException = true) :
    Picks ctx R v (handle.find? (originallyOf ctx R v))
      (runCatches R v ((catchesAsValueException ctx handle none).toList ++ rest)) := by
  cases handle with
  | nil => exact absurd rfl hne
  | cons x handle =>
    have henv : (Env.set (fun _ => none) .catchVar (some v) : Env ctx.H α) .catchVar = some v := by simp [Env.set]
    have htype : v.isOfType R ctx.valueExceptionType = true := (Value.isOfType_value R v).trans h
    simp only [catchesAsValueException, Option.toList_some, List.singleton_append, runCatches, htype, if_true]
    rw [traverse_eval henv h]
    cases hf : (x :: handle).find? (originallyOf ctx R v) with
    | some d => exact asBody_runs henv h (hh d (List.mem_of_find?_eq_some hf)) (List.find?_some hf)
    | none => simp [Picks, Code.eval, Operand.eval, henv]

/-- Other values go past a catch of `haxe.ValueException`. -/
theorem asValueException_past (handle : List Catch) (valueCatch : Option Catch)
    (hc : ∀ c ∈ valueCatch, ctx.isValueCatch c.vType = true) (rest : List NativeCatch) (h : v.isValueException = false) :
    runCatches R v ((catchesAsValueException ctx handle valueCatch).toList ++ rest) = runCatches R v rest := by
  have htype : v.isOfType R ctx.valueExceptionType = false := (Value.isOfType_value R v).trans h
  cases handle <;> cases valueCatch
  case nil.none => rfl
  case cons.none => simp [catchesAsValueException, runCatches, htype]
  all_goals
    have hcatch := (isOfType_valueCatch (R := R) (v := v) (hc _ rfl)).trans h
    simp [catchesAsValueException, runCatches, hcatch]

/-! ## `catch_native` -/

/-- The lowered catches get to what `pick` says. -/
theorem transformNative_run (hv : v.isOfType R ctx.wildcardCatchType = true) :
    ∀ (catches handle : List Catch) (valueCatch : Option Catch),
      (∀ x ∈ handle, x.vType.isHaxeException = false) →
      Picks ctx R v (pick ctx R v handle valueCatch catches)
        (runCatches R v (transformNative ctx handle valueCatch catches))
  | [], handle, valueCatch, hh => by
    unfold pick transformNative
    cases hval : v.isValueException with
    | false =>
      rw [if_neg (by simp)]
      cases handle with
      | nil =>
        cases valueCatch with
        | none => rfl
        | some c => exact catchesToIfs_eval hv [c]
      | cons x handle =>
        simp only
        rw [asValueException_past _ _ (by simp) _ hval]
        cases valueCatch with
        | none => rfl
        | some c => exact catchesToIfs_eval hv [c]
    | true =>
      cases handle with
      | nil =>
        rw [if_neg (by simp)]
        cases valueCatch with
        | none => rfl
        | some c => exact catchesToIfs_eval hv [c]
      | cons x handle =>
        rw [if_pos (by simp)]
        exact asValueException_none (by simp) hh _ hval
  | c :: rest, handle, valueCatch, hh => by
    unfold pick transformNative
    by_cases hw : ctx.isHaxeWildcardCatch c.vType = true
    · rw [if_pos hw, if_pos hw]
      cases handle with
      | nil =>
        rw [if_pos rfl]
        cases valueCatch with
        | none => exact catchesToIfs_eval hv _
        | some d => exact catchesToIfs_eval hv _
      | cons x handle =>
        rw [if_neg (by simp)]
        split_ifs with hval
        · exact asValueException_none (by simp) hh _ hval
        · simp only
          rw [asValueException_past _ _ (by simp) _ (by simpa using hval)]
          exact catchesToIfs_eval hv _
    · rw [if_neg hw, if_neg hw]
      by_cases hc : (ctx.catchesAnything && ctx.isValueCatch c.vType) = true
      · have hc' : ctx.isValueCatch c.vType = true := (Bool.and_eq_true_iff.1 hc).2
        rw [if_pos hc, if_pos hc]
        by_cases ht : v.isOfType R c.vType = true
        · rw [if_pos ht]
          exact asValueException_some hc' hh _ ht
        · rw [if_neg ht, asValueException_past _ _ (by simpa using hc') _
            ((isOfType_valueCatch hc').symm.trans (by simpa using ht))]
          exact transformNative_run hv rest [] _ (by simp)
      · rw [if_neg hc, if_neg hc]
        by_cases hn : ctx.isNativeCatch c.vType = true
        · rw [if_pos hn, if_pos hn]
          by_cases ht : v.isOfType R c.vType = true
          · rw [if_pos ht]
            exact runCatches_user _ ht
          · rw [if_neg ht]
            simp only [runCatches, if_neg ht]
            refine transformNative_run hv rest _ valueCatch ?_
            split_ifs with hx
            · rw [Bool.and_eq_true, Bool.not_eq_true'] at hx
              exact List.forall_mem_cons.2 ⟨hx.2, hh⟩
            · exact hh
        · rw [if_neg hn, if_neg hn]
          exact catchesToIfs_eval hv _

end Ifs

end EvilHaxe.Exceptions
