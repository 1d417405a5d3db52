/-
The truth of conditions: `negate` and `conjoin` compute negations and conjunctions that evaluate as the
short-circuit operators do, so the current condition of a handler is true exactly when every condition
on its stack is.
-/
import EvilHaxe.ParserEntry.Eval

namespace EvilHaxe.ParserEntry

open EvilHaxe.Syntax ConditionHandler

/-- Whether a condition is true, or the error its evaluation raises. -/
def truth (Fl : Floats) (env : DefineEnv) (e : Expr) : Except Exc Bool :=
  (eval Fl env e).map isTrue

/-- `&&` on truth values: the second is asked for only if the first is true. -/
def andThen (a b : Except Exc Bool) : Except Exc Bool :=
  match a with
  | .ok true => b
  | .ok false => .ok false
  | .error e => .error e

theorem andThen_eq_true {a b : Except Exc Bool} : andThen a b = .ok true ↔ a = .ok true ∧ b = .ok true := by
  rcases a with _ | _ | _ <;> simp [andThen]

theorem andThen_ok {a b : Except Exc Bool} (ha : ∃ x, a = .ok x) (hb : ∃ x, b = .ok x) :
    ∃ x, andThen a b = .ok x := by
  obtain ⟨_ | _, rfl⟩ := ha
  · exact ⟨false, rfl⟩
  · exact hb

section

variable (Fl : Floats) (env : DefineEnv)

/-! ## The operators -/

theorem isTrue_tBool (b : Bool) : isTrue (.tBool b : SmallType Fl) = b := by cases b <;> rfl

theorem truth_not (flag : UnopFlag) (e : Expr) :
    truth Fl env (.eUnop .not flag e) = (truth Fl env e).map (! ·) := by
  unfold truth
  simp only [eval]
  cases eval Fl env e with
  | error x => rfl
  | ok v => exact congrArg Except.ok (isTrue_tBool Fl _)

theorem truth_and (e1 e2 : Expr) :
    truth Fl env (.eBinop .opBoolAnd e1 e2) = andThen (truth Fl env e1) (truth Fl env e2) := by
  unfold truth
  simp only [eval, evalBinop]
  cases eval Fl env e1 with
  | error x => rfl
  | ok v1 =>
    cases h : isTrue v1 <;> cases eval Fl env e2 <;>
      simp [bind, Except.bind, Except.map, andThen, h, isTrue_tBool]

theorem truth_or (e1 e2 : Expr) : truth Fl env (.eBinop .opBoolOr e1 e2) =
    (andThen ((truth Fl env e1).map (! ·)) ((truth Fl env e2).map (! ·))).map (! ·) := by
  unfold truth
  simp only [eval, evalBinop]
  cases eval Fl env e1 with
  | error x => rfl
  | ok v1 =>
    cases h : isTrue v1 <;> cases eval Fl env e2 <;>
      simp [bind, Except.bind, Except.map, andThen, h, isTrue_tBool]

/-! ## `negate`, `conjoin`, `get_current_condition` -/

theorem map_not_not (a : Except Exc Bool) : (a.map (! ·)).map (! ·) = a := by
  rcases a with _ | _ | _ <;> rfl

theorem truth_negate (e : Expr) : truth Fl env (negate e) = (truth Fl env e).map (! ·) := by
  fun_induction negate e with
  | case1 flag e1 => rw [truth_not, map_not_not]
  | case2 e1 e2 ih1 ih2 => rw [truth_or, truth_and, ih1, ih2, map_not_not, map_not_not]
  | case3 e1 e2 ih1 ih2 => rw [truth_or, truth_and, ih1, ih2, map_not_not]
  | case4 e => exact truth_not Fl env .flagPrefix e

theorem truth_maybeParent (e : Expr) : truth Fl env (maybeParent e) = truth Fl env e := by
  unfold maybeParent
  split
  · split <;> rfl
  · rfl

theorem truth_conjoin (e1 e2 : Expr) :
    truth Fl env (conjoin e1 e2) = andThen (truth Fl env e1) (truth Fl env e2) := by
  rw [conjoin, truth_and, truth_maybeParent, truth_maybeParent]

theorem foldl_conjoin_true_iff (el : List Expr) : ∀ e : Expr,
    truth Fl env (el.foldl conjoin e) = .ok true ↔ ∀ e' ∈ e :: el, truth Fl env e' = .ok true := by
  induction el with
  | nil => simp
  | cons e1 el ih =>
    intro e
    rw [List.foldl_cons, ih]
    simp only [List.forall_mem_cons, truth_conjoin, andThen_eq_true, and_assoc]

/-- The current condition is true exactly when all conditions on the stack are. -/
theorem currentCondition_true_iff (stack : List Expr) :
    truth Fl env (currentCondition stack) = .ok true ↔ ∀ e ∈ stack, truth Fl env e = .ok true := by
  cases stack with
  | nil =>
    obtain ⟨s, hs⟩ := Option.isSome_iff_exists.1 env.hasTrue
    simp [currentCondition, truth, eval, DefineEnv.value, hs, Except.map, isTrue]
  | cons e el => exact foldl_conjoin_true_iff Fl env el e

/-- The current condition raises no error when no condition on the stack does. -/
theorem currentCondition_ok {stack : List Expr} (h : ∀ e ∈ stack, ∃ b, truth Fl env e = .ok b) :
    ∃ b, truth Fl env (currentCondition stack) = .ok b := by
  cases stack with
  | nil => exact ⟨true, (currentCondition_true_iff Fl env []).2 nofun⟩
  | cons e el =>
    obtain ⟨he, hel⟩ := List.forall_mem_cons.1 h
    show ∃ b, truth Fl env (el.foldl conjoin e) = .ok b
    induction el generalizing e with
    | nil => exact he
    | cons e1 el ih =>
      obtain ⟨he1, hel⟩ := List.forall_mem_cons.1 hel
      have hconj : ∃ b, truth Fl env (conjoin e e1) = .ok b := by
        rw [truth_conjoin]; exact andThen_ok he he1
      exact ih (conjoin e e1) (List.forall_mem_cons.2 ⟨hconj, hel⟩) hconj hel

/-- A condition on the stack that is false makes the current condition false, unless an error is met
before it. -/
theorem currentCondition_false {stack : List Expr} {e : Expr} (he : e ∈ stack)
    (hf : truth Fl env e = .ok false) (h : ∀ e ∈ stack, ∃ b, truth Fl env e = .ok b) :
    truth Fl env (currentCondition stack) = .ok false := by
  obtain ⟨_ | _, hb⟩ := currentCondition_ok Fl env h
  · exact hb
  · have := (currentCondition_true_iff Fl env stack).1 hb e he
    rw [hf] at this
    cases this

end

end EvilHaxe.ParserEntry
