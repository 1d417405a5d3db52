/-
A chain `x |> s1 |> .. |> sn` with the mod `pipe`: when what the mod builds is the left-nested application that the chain
stands for. Every pass through the marker takes off one argument, so that it is so for one stage, and for two stages of
which the second has no arguments of its own.
-/
import EvilHaxe.Mods.Pipe
import EvilHaxe.Syntax.WithoutMeta

namespace EvilHaxe.Mods

open EvilHaxe.Syntax EvilHaxe.Evil EvilHaxe.Grammar EvilHaxe.Eval

namespace Pipe

/-! ## Chains -/

/-- What the mod builds for the chain: the tail is parsed, and rewritten, before its head is put into it. -/
def chain (x : Expr) : List Expr → Except Exc Expr
  | [] => pure x
  | s :: stages => do makePipeExpr x (← chain s stages)

/-- One stage, applied to what is piped into it. -/
def apply : Expr → Expr → Expr
  | .eCall f args, x => .eCall f (args ++ [x])
  | f, x => .eCall f [x]

/-- The left-nested application. -/
def nested (x : Expr) (stages : List Expr) : Expr := stages.foldl (fun x s => apply s x) x

/-- The tree without the markers of the mod. -/
abbrev unmarked (e : Expr) : Expr := dropExpr pipeForwardMetaName e

def IsCall : Expr → Prop
  | .eCall _ _ => True
  | _ => False

/-- A stage that the mod takes as it is: no metadata stands before it, and a call has arguments. -/
def Plain : Expr → Prop
  | .eMeta _ _ => False
  | .eCall _ [] => False
  | _ => True

/-- The chains that come out right. -/
def Short : List Expr → Prop
  | [s] => Plain s
  | [s1, s2] => Plain s1 ∧ Plain s2 ∧ ¬ IsCall s2
  | _ => False

/-! ## Calls -/

/-- What a stage calls. -/
def callee : Expr → Expr
  | .eCall f _ => f
  | e => e

/-- The arguments that a stage has already. -/
def args : Expr → List Expr
  | .eCall _ args => args
  | _ => []

/-- What the mod makes a call of, where it puts something into `e`. -/
def target : Expr → Expr
  | .eMeta (.mk n _) e => if n = pipeForwardMetaName then callee e else target e
  | .eCall f (_ :: _) => f
  | e => e

theorem apply_eq (s x : Expr) : apply s x = .eCall (callee s) (args s ++ [x]) := by
  cases s <;> rfl

theorem unmarked_call (f : Expr) (el : List Expr) : unmarked (.eCall f el) = .eCall (unmarked f) (el.map unmarked) :=
  dropExpr_call f el

theorem unmarked_wrap (e : Expr) : unmarked (wrapOperatorMeta e) = unmarked e := dropExpr_meta_self [] e

theorem unmarked_apply (s x : Expr) :
    unmarked (apply s x) = .eCall (unmarked (callee s)) ((args s).map unmarked ++ [unmarked x]) := by
  rw [apply_eq, unmarked_call, List.map_append, List.map_singleton]

theorem Plain.target {s : Expr} (h : Plain s) : target s = callee s := by
  cases s with
  | eMeta m e => exact h.elim
  | eCall f args =>
    cases args with
    | nil => exact h.elim
    | cons a args => rfl
  | _ => rfl

/-! ## One step -/

theorem makePipeExpr_plain {e1 e2 : Expr} (h : Plain e2) : makePipeExpr e1 e2 = .ok (wrapOperatorMeta (apply e2 e1)) := by
  cases e2 with
  | eMeta m e => exact h.elim
  | eCall f args =>
    cases args with
    | nil => exact h.elim
    | cons a args =>
      rw [makePipeExpr, if_pos (List.cons_ne_nil _ _)]
      rfl
  | _ =>
    rw [makePipeExpr]
    · rfl
    all_goals intros; contradiction

theorem makePipeExpr_skip {n : String} (hn : n ≠ pipeForwardMetaName) (x : Expr) (params : List Expr) (e : Expr) :
    makePipeExpr x (.eMeta (.mk n params) e) = makePipeExpr x e := by
  rw [makePipeExpr.eq_def]
  exact if_neg hn

/-- Only a call can have the marker. -/
theorem isCall_of_marked {x e r : Expr} {params : List Expr}
    (h : makePipeExpr x (.eMeta (.mk pipeForwardMetaName params) e) = .ok r) : IsCall e := by
  rw [makePipeExpr.eq_def] at h
  cases e with
  | eCall f el => trivial
  | _ => cases (if_pos rfl).symm.trans h

theorem slice_concat (el : List Expr) (last : Expr) :
    ListArray.slice (el ++ [last]) 0 (some (((el ++ [last]).length : Int) - 2)) = el.take (el.length - 1) := by
  cases el with
  | nil => simp [ListArray.slice, ListArray.place]
  | cons e el =>
    have hplace : ListArray.place ((e :: el) ++ [last]).length ((((e :: el) ++ [last]).length : Int) - 2) = el.length := by
      simp only [ListArray.place, List.length_append, List.length_cons, List.length_nil]
      split_ifs <;> omega
    simp only [ListArray.slice, Option.map_some, Option.getD_some, hplace]
    rw [List.take_append_of_le_length (by simp)]
    simp [ListArray.place]

/-- The marker: an argument is taken off, and the step goes on in the last one. -/
theorem makePipeExpr_marked (e1 f last : Expr) (el : List Expr) :
    makePipeExpr e1 (wrapOperatorMeta (.eCall f (el ++ [last]))) =
      (makePipeExpr e1 last).map fun last => .eCall f (el.take (el.length - 1) ++ [last]) := by
  unfold wrapOperatorMeta
  rw [makePipeExpr, if_pos rfl, dif_pos (by simp), List.getLast_concat, slice_concat]
  cases makePipeExpr e1 last <;> rfl

/-- What the step builds: a call of `c` with the marker and with `x` as the last argument, or one without the marker. -/
inductive Built (x c : Expr) : Expr → Prop where
  | marked (el : List Expr) : Built x c (wrapOperatorMeta (.eCall c (el ++ [x])))
  | into (el : List Expr) {last y : Expr} (h : makePipeExpr x last = .ok y) : Built x c (.eCall c (el ++ [y]))
  | only : Built x c (.eCall c [x])

theorem makePipeExpr_into {x c : Expr} {params el : List Expr} (h : el ≠ []) {r : Expr}
    (hr : makePipeExpr x (.eMeta (.mk pipeForwardMetaName params) (.eCall c el)) = .ok r) :
    ∃ el' last y, el = el' ++ [last] ∧ makePipeExpr x last = .ok y ∧ r = .eCall c (el'.take (el'.length - 1) ++ [y]) := by
  rcases List.eq_nil_or_concat el with rfl | ⟨el', last, rfl⟩
  · exact absurd rfl h
  · rw [List.concat_eq_append] at *
    rw [makePipeExpr, if_pos rfl, dif_pos h, List.getLast_concat, slice_concat] at hr
    cases hy : makePipeExpr x last with
    | error e => rw [hy] at hr; cases hr
    | ok y =>
      rw [hy] at hr
      cases hr
      exact ⟨el', last, y, rfl, hy, rfl⟩

theorem makePipeExpr_built {x e r : Expr} (h : makePipeExpr x e = .ok r) : Built x (target e) r := by
  induction e using makePipeExpr.induct with
  | case1 params c el hel =>
    obtain ⟨el', last, y, -, hy, rfl⟩ := makePipeExpr_into hel h
    rw [target, if_pos rfl]
    exact .into _ hy
  | case2 params c el hel =>
    rw [makePipeExpr, if_pos rfl, dif_neg hel] at h
    cases h
    rw [target, if_pos rfl]
    exact .only
  | case3 params e he =>
    have hcall := isCall_of_marked h
    cases e <;> first | exact hcall.elim | exact (he _ _ rfl).elim
  | case4 n params e hn ih =>
    rw [makePipeExpr_skip hn] at h
    rw [target, if_neg hn]
    exact ih h
  | case5 c el hel =>
    rw [makePipeExpr, if_pos hel] at h
    cases h
    obtain ⟨a, el, rfl⟩ := List.exists_cons_of_ne_nil hel
    exact .marked (a :: el)
  | case6 c el hel =>
    rw [makePipeExpr, if_neg hel] at h
    cases h
    obtain rfl := not_not.1 hel
    exact .marked []
  | case7 e hm hc =>
    have hplain : Plain e := by
      cases e <;> first | trivial | exact absurd rfl (hc _ _) | skip
      rename_i m e
      cases m
      exact absurd rfl (hm _ _ _)
    rw [makePipeExpr_plain hplain] at h
    cases h
    rw [hplain.target]
    have hargs : args e = [] := by
      cases e <;> first | rfl | exact absurd rfl (hc _ _)
    rw [apply_eq, hargs]
    exact .marked []

/-! ## The chain calls its last stage -/

/-- A call of `c`, with or without the marker. -/
def IsCallOf (c r : Expr) : Prop := ∃ el, el ≠ [] ∧ (r = .eCall c el ∨ r = wrapOperatorMeta (.eCall c el))

theorem Built.isCallOf {x c r : Expr} (h : Built x c r) : IsCallOf c r := by
  cases h with
  | marked el => exact ⟨_, by simp, .inr rfl⟩
  | into el _ => exact ⟨_, by simp, .inl rfl⟩
  | only => exact ⟨_, by simp, .inl rfl⟩

theorem IsCallOf.target {c r : Expr} (h : IsCallOf c r) : target r = c := by
  obtain ⟨el, hel, rfl | rfl⟩ := h
  · obtain ⟨a, el, rfl⟩ := List.exists_cons_of_ne_nil hel
    rfl
  · rw [wrapOperatorMeta, Pipe.target, if_pos rfl]
    rfl

theorem IsCallOf.unmarked {c r : Expr} (h : IsCallOf c r) : ∃ el, unmarked r = .eCall (unmarked c) el := by
  obtain ⟨el, -, rfl | rfl⟩ := h
  · exact ⟨_, unmarked_call c el⟩
  · exact ⟨_, (unmarked_wrap _).trans (unmarked_call c el)⟩

theorem chain_cons {x s r : Expr} {stages : List Expr} (h : chain x (s :: stages) = .ok r) :
    ∃ e, chain s stages = .ok e ∧ makePipeExpr x e = .ok r := by
  rw [chain] at h
  cases hc : chain s stages with
  | error e => rw [hc] at h; cases h
  | ok e =>
    rw [hc] at h
    exact ⟨e, rfl, h⟩

theorem chain_isCallOf {x s r : Expr} {before : List Expr} (h : chain x (before ++ [s]) = .ok r) :
    IsCallOf (target s) r ∧ ∃ y e, makePipeExpr y s = .ok e := by
  induction before generalizing x r with
  | nil =>
    obtain ⟨e, he, hr⟩ := chain_cons h
    cases he
    exact ⟨(makePipeExpr_built hr).isCallOf, x, r, hr⟩
  | cons s' before ih =>
    obtain ⟨e, he, hr⟩ := chain_cons h
    obtain ⟨hcall, hs⟩ := ih he
    have hbuilt := makePipeExpr_built hr
    rw [hcall.target] at hbuilt
    exact ⟨hbuilt.isCallOf, hs⟩

/-! ## Sizes -/

/-- The size of a tree, the markers apart. -/
noncomputable def size (e : Expr) : Nat := sizeOf (unmarked e)

theorem size_pos (e : Expr) : 0 < size e := by
  unfold size
  cases unmarked e <;> simp only [Expr.eConst.sizeOf_spec, Expr.eArray.sizeOf_spec, Expr.eBinop.sizeOf_spec,
    Expr.eField.sizeOf_spec, Expr.eParenthesis.sizeOf_spec, Expr.eObjectDecl.sizeOf_spec, Expr.eArrayDecl.sizeOf_spec,
    Expr.eCall.sizeOf_spec, Expr.eNew.sizeOf_spec, Expr.eUnop.sizeOf_spec, Expr.eVars.sizeOf_spec,
    Expr.eFunction.sizeOf_spec, Expr.eBlock.sizeOf_spec, Expr.eFor.sizeOf_spec, Expr.eIf.sizeOf_spec,
    Expr.eWhile.sizeOf_spec, Expr.eSwitch.sizeOf_spec, Expr.eTry.sizeOf_spec, Expr.eReturn.sizeOf_spec,
    Expr.eBreak.sizeOf_spec, Expr.eContinue.sizeOf_spec, Expr.eUntyped.sizeOf_spec, Expr.eThrow.sizeOf_spec,
    Expr.eCast.sizeOf_spec, Expr.eIs.sizeOf_spec, Expr.eDisplay.sizeOf_spec, Expr.eTernary.sizeOf_spec,
    Expr.eCheckType.sizeOf_spec, Expr.eMeta.sizeOf_spec] <;> omega

theorem size_call (f : Expr) (el : List Expr) : size (.eCall f el) = 1 + size f + sizeOf (el.map unmarked) := by
  unfold size
  rw [unmarked_call, Expr.eCall.sizeOf_spec]

theorem size_wrap (e : Expr) : size (wrapOperatorMeta e) = size e := by
  unfold size
  rw [unmarked_wrap]

theorem size_meta {n : String} (hn : n ≠ pipeForwardMetaName) (params : List Expr) (e : Expr) :
    size e < size (.eMeta (.mk n params) e) := by
  unfold size unmarked
  rw [dropExpr_meta_ne hn, Expr.eMeta.sizeOf_spec]
  omega

theorem sizeOf_concat (el : List Expr) (e : Expr) : sizeOf (el ++ [e]) = sizeOf el + sizeOf e + 1 := by
  induction el with
  | nil =>
    simp only [List.nil_append, List.cons.sizeOf_spec, List.nil.sizeOf_spec]
  | cons a el ih =>
    simp only [List.cons_append, List.cons.sizeOf_spec, ih]
    omega

theorem sizeOf_take (el : List Expr) (k : Nat) : sizeOf (el.take k) ≤ sizeOf el := by
  induction el generalizing k with
  | nil => simp
  | cons e el ih =>
    cases k with
    | zero =>
      simp only [List.take_zero, List.cons.sizeOf_spec, List.nil.sizeOf_spec]
      omega
    | succ k =>
      have := ih k
      simp only [List.take_succ_cons, List.cons.sizeOf_spec]
      omega

theorem size_concat (f e : Expr) (el : List Expr) :
    size (.eCall f (el ++ [e])) = 1 + size f + sizeOf (el.map unmarked) + size e + 1 := by
  rw [size_call, List.map_append, List.map_singleton, sizeOf_concat]
  unfold size
  omega

/-- An application holds the stage and what is piped into it. -/
theorem size_apply (s x : Expr) : size s + size x + 1 ≤ size (apply s x) ∧ size x + 4 ≤ size (apply s x) := by
  have hs := size_pos s
  rw [apply_eq, size_concat]
  cases s with
  | eCall f el =>
    have hf := size_pos f
    have hel : 0 < sizeOf (el.map unmarked) := by
      cases el <;> simp only [List.map_nil, List.map_cons, List.nil.sizeOf_spec, List.cons.sizeOf_spec] <;> omega
    rw [size_call, callee, args]
    omega
  | _ => simp only [callee, args, List.map_nil, List.nil.sizeOf_spec]; omega

theorem size_nested (x : Expr) (stages : List Expr) : size x ≤ size (nested x stages) := by
  induction stages generalizing x with
  | nil => exact Nat.le_refl _
  | cons s stages ih =>
    have := ih (apply s x)
    have := (size_apply s x).2
    rw [nested, List.foldl_cons]
    exact le_trans (by omega) ‹size (apply s x) ≤ _›

/-- One step adds at most a call of one argument. -/
theorem size_makePipeExpr {x e r : Expr} (h : makePipeExpr x e = .ok r) : size r ≤ size e + size x + 3 := by
  induction e using makePipeExpr.induct generalizing r with
  | case1 params c el hel ih =>
    obtain ⟨el', last, y, rfl, hy, rfl⟩ := makePipeExpr_into hel h
    have hlast := ih (r := y)
    rw [List.getLast_concat] at hlast
    have hle := hlast hy
    have htake := sizeOf_take (el'.map unmarked) (el'.length - 1)
    have hmark : size (.eMeta (.mk pipeForwardMetaName params) (.eCall c (el' ++ [last]))) = size (.eCall c (el' ++ [last])) :=
      congrArg sizeOf (dropExpr_meta_self params _)
    rw [hmark, size_concat, size_concat, List.map_take]
    omega
  | case2 params c el hel =>
    rw [makePipeExpr, if_pos rfl, dif_neg hel] at h
    cases h
    have hmark : size (.eMeta (.mk pipeForwardMetaName params) (.eCall c el)) = size (.eCall c el) :=
      congrArg sizeOf (dropExpr_meta_self params _)
    obtain rfl := not_not.1 hel
    have := size_concat c x []
    rw [List.nil_append] at this
    rw [hmark, size_call c [], this]
    omega
  | case3 params e he =>
    have hcall := isCall_of_marked h
    cases e <;> first | exact hcall.elim | exact (he _ _ rfl).elim
  | case4 n params e hn ih =>
    rw [makePipeExpr_skip hn] at h
    have := ih h
    have := size_meta hn params e
    omega
  | case5 c el hel =>
    rw [makePipeExpr, if_pos hel] at h
    cases h
    rw [size_wrap, size_concat, size_call]
    omega
  | case6 c el hel =>
    rw [makePipeExpr, if_neg hel] at h
    cases h
    have := size_concat (.eCall c el) x []
    simp only [List.nil_append, List.map_nil, List.nil.sizeOf_spec] at this
    rw [size_wrap, this]
    omega
  | case7 e hm hc =>
    have hplain : Plain e := by
      cases e <;> first | trivial | exact absurd rfl (hc _ _) | skip
      rename_i m e
      cases m
      exact absurd rfl (hm _ _ _)
    have hargs : args e = [] := by
      cases e <;> first | rfl | exact absurd rfl (hc _ _)
    have hcallee : callee e = e := by
      cases e <;> first | rfl | exact absurd rfl (hc _ _)
    rw [makePipeExpr_plain hplain] at h
    cases h
    rw [size_wrap, apply_eq, hargs, size_concat, hcallee, List.map_nil, List.nil.sizeOf_spec]
    omega

theorem size_target (e : Expr) : size (target e) ≤ size e := by
  induction e using target.induct with
  | case1 params e =>
    have hmark : size (.eMeta (.mk pipeForwardMetaName params) e) = size e := congrArg sizeOf (dropExpr_meta_self params _)
    rw [target, if_pos rfl, hmark]
    cases e with
    | eCall f el => rw [size_call, callee]; omega
    | _ => exact Nat.le_refl _
  | case2 n params e hn ih =>
    have := size_meta hn params e
    rw [target, if_neg hn]
    omega
  | case3 f a el => rw [size_call, target]; omega
  | case4 e hm hc =>
    rw [target]
    · assumption
    · assumption

/-! ## The last stage -/

/-- A stage that keeps what it calls is taken as it is. -/
theorem plain_of_target {s y r : Expr} (hmake : makePipeExpr y s = .ok r) (h : size (target s) = size (callee s)) :
    Plain s := by
  cases s with
  | eMeta m e =>
    obtain ⟨n, params⟩ := m
    have hcallee : callee (.eMeta (.mk n params) e) = .eMeta (.mk n params) e := rfl
    rw [hcallee] at h
    by_cases hn : n = pipeForwardMetaName
    · subst hn
      have hmark : size (.eMeta (.mk pipeForwardMetaName params) e) = size e := congrArg sizeOf (dropExpr_meta_self params _)
      have hcall := isCall_of_marked hmake
      cases e with
      | eCall f el =>
        rw [target, if_pos rfl, callee, hmark, size_call] at h
        omega
      | _ => exact hcall.elim
    · have hlt := size_meta hn params e
      have := size_target e
      rw [target, if_neg hn] at h
      omega
  | eCall f el =>
    cases el with
    | nil =>
      have htarget : target (.eCall f []) = .eCall f [] := rfl
      rw [htarget, callee, size_call] at h
      omega
    | cons a el => trivial
  | _ => trivial

theorem size_call_inj {f g : Expr} {el gl : List Expr} (h : (.eCall f el : Expr) = .eCall g gl) : f = g ∧ el = gl := by
  injection h with h1 h2
  exact ⟨h1, h2⟩

theorem nested_concat (x s : Expr) (before : List Expr) : nested x (before ++ [s]) = apply s (nested x before) := by
  rw [nested, List.foldl_concat]
  rfl

/-- The chain and the application call the same: the last stage is taken as it is. -/
theorem plain_of_chain {x s r : Expr} (before : List Expr) (h : chain x (before ++ [s]) = .ok r)
    (hr : unmarked r = unmarked (nested x (before ++ [s]))) : Plain s := by
  obtain ⟨hcall, y, e, hmake⟩ := chain_isCallOf h
  obtain ⟨el, hel⟩ := hcall.unmarked
  rw [nested_concat, unmarked_apply, hel] at hr
  exact plain_of_target hmake (congrArg sizeOf (size_call_inj hr).1)

theorem chain_single (x s : Expr) : chain x [s] = makePipeExpr x s := rfl

/-! ## One stage and two -/

theorem single_iff (x s : Expr) : (makePipeExpr x s).map unmarked = .ok (unmarked (apply s x)) ↔ Plain s := by
  constructor
  · intro h
    cases hr : makePipeExpr x s with
    | error e => rw [hr] at h; cases h
    | ok r =>
      rw [hr] at h
      injection h with h
      exact plain_of_chain [] hr h
  · intro h
    rw [makePipeExpr_plain h]
    exact congrArg Except.ok (unmarked_wrap _)

/-- Two stages, the second one taken as it is: its last argument is gone. -/
theorem chain_two (x s1 : Expr) {s2 : Expr} (h : Plain s2) :
    chain x [s1, s2] =
      (makePipeExpr x s1).map fun y => .eCall (callee s2) ((args s2).take ((args s2).length - 1) ++ [y]) := by
  have htail : chain s1 [s2] = .ok (wrapOperatorMeta (.eCall (callee s2) (args s2 ++ [s1]))) := by
    rw [chain_single, makePipeExpr_plain h, apply_eq]
  rw [chain, htail]
  exact makePipeExpr_marked x (callee s2) s1 (args s2)

theorem Plain.isCall_iff {s : Expr} (h : Plain s) : IsCall s ↔ args s ≠ [] := by
  cases s with
  | eCall f el =>
    cases el with
    | nil => exact h.elim
    | cons a el => exact iff_of_true trivial (List.cons_ne_nil _ _)
  | _ => exact iff_of_false id (absurd rfl)

theorem two_iff (x s1 : Expr) {s2 : Expr} (h : Plain s2) :
    (chain x [s1, s2]).map unmarked = .ok (unmarked (nested x [s1, s2])) ↔ Plain s1 ∧ ¬ IsCall s2 := by
  have hnested : nested x [s1, s2] = apply s2 (apply s1 x) := rfl
  rw [chain_two x s1 h, hnested, unmarked_apply, h.isCall_iff, not_not]
  constructor
  · intro heq
    cases hy : makePipeExpr x s1 with
    | error e => rw [hy] at heq; cases heq
    | ok y =>
      rw [hy] at heq
      injection heq with heq
      rw [unmarked_call] at heq
      have hlists := (size_call_inj heq).2
      have hlength := congrArg List.length hlists
      simp only [List.length_map, List.length_append, List.length_take, List.length_cons, List.length_nil] at hlength
      have hnil : args s2 = [] := List.length_eq_zero_iff.1 (by omega)
      rw [hnil] at hlists
      simp only [List.take_nil, List.nil_append, List.map_cons, List.map_nil, List.cons.injEq, and_true] at hlists
      exact ⟨(single_iff x s1).1 (by rw [hy]; exact congrArg Except.ok hlists), hnil⟩
  · rintro ⟨hplain, hnil⟩
    rw [makePipeExpr_plain hplain, hnil]
    refine congrArg Except.ok ?_
    rw [unmarked_call]
    simp only [List.take_nil, List.nil_append, List.map_cons, List.map_nil, unmarked_wrap]

/-! ## Three and more -/

/-- A call without the marker: the argument goes behind those that are there. -/
theorem makePipeExpr_call (x c : Expr) {el : List Expr} (hel : el ≠ []) :
    makePipeExpr x (.eCall c el) = .ok (wrapOperatorMeta (.eCall c (el ++ [x]))) := by
  rw [makePipeExpr, if_pos hel]
  rfl

theorem lastArgument_call {x s c r : Expr} {el : List Expr} (hel : el ≠ []) (h : makePipeExpr x (.eCall c el) = .ok r) :
    ∃ c el y, unmarked r = .eCall c (el ++ [unmarked y]) ∧ size y ≤ size s + size x + 3 := by
  rw [makePipeExpr_call x c hel] at h
  cases h
  refine ⟨unmarked c, el.map unmarked, x, ?_, by omega⟩
  rw [unmarked_wrap, unmarked_call, List.map_append, List.map_singleton]

/-- The last argument of the call that a chain is: the head, or the head with the first stage. -/
theorem chain_last {x s1 s2 r : Expr} {stages : List Expr} (h : chain x (s1 :: s2 :: stages) = .ok r) :
    ∃ c el y, unmarked r = .eCall c (el ++ [unmarked y]) ∧ size y ≤ size s1 + size x + 3 := by
  obtain ⟨e, he, hr⟩ := chain_cons h
  obtain ⟨e', he', hr'⟩ := chain_cons he
  cases makePipeExpr_built hr' with
  | marked el =>
    rw [makePipeExpr_marked] at hr
    cases hy : makePipeExpr x s1 with
    | error e => rw [hy] at hr; cases hr
    | ok y =>
      rw [hy] at hr
      cases hr
      refine ⟨unmarked (target e'), (el.take (el.length - 1)).map unmarked, y, ?_, size_makePipeExpr hy⟩
      rw [unmarked_call, List.map_append, List.map_singleton]
  | into el hy =>
    exact lastArgument_call (List.append_ne_nil_of_right_ne_nil _ (List.cons_ne_nil _ _)) hr
  | only => exact lastArgument_call (List.cons_ne_nil _ _) hr

theorem not_chain_three {x s1 s2 s3 : Expr} {stages : List Expr} :
    (chain x (s1 :: s2 :: s3 :: stages)).map unmarked ≠ .ok (unmarked (nested x (s1 :: s2 :: s3 :: stages))) := by
  intro h
  cases hr : chain x (s1 :: s2 :: s3 :: stages) with
  | error e => rw [hr] at h; cases h
  | ok r =>
    rw [hr] at h
    injection h with h
    obtain ⟨c, el, y, hlast, hsize⟩ := chain_last hr
    -- the last stage is applied to the nested application of at least the first two
    obtain ⟨before, s, hbefore⟩ := (List.eq_nil_or_concat (s3 :: stages)).resolve_left (List.cons_ne_nil _ _)
    rw [List.concat_eq_append] at hbefore
    rw [hlast, show s1 :: s2 :: s3 :: stages = (s1 :: s2 :: before) ++ [s] by rw [hbefore]; rfl, nested_concat,
      unmarked_apply] at h
    have heq : unmarked y = unmarked (nested x (s1 :: s2 :: before)) := by
      have := congrArg List.getLast? (size_call_inj h).2
      simpa using this
    have hy : size y = size (nested x (s1 :: s2 :: before)) := congrArg sizeOf heq
    have hfirst := (size_apply s1 x).1
    have hsecond := (size_apply s2 (apply s1 x)).2
    have hrest := size_nested (apply s2 (apply s1 x)) before
    rw [show nested x (s1 :: s2 :: before) = nested (apply s2 (apply s1 x)) before from rfl] at hy
    omega

theorem chain_eq_nested_iff (x : Expr) {stages : List Expr} (h : stages ≠ []) :
    (chain x stages).map unmarked = .ok (unmarked (nested x stages)) ↔ Short stages := by
  match stages, h with
  | [s], _ => exact single_iff x s
  | [s1, s2], _ =>
    constructor
    · intro heq
      cases hr : chain x [s1, s2] with
      | error e => rw [hr] at heq; cases heq
      | ok r =>
        have hmap := heq
        rw [hr] at hmap
        injection hmap with hmap
        have hplain : Plain s2 := plain_of_chain [s1] hr hmap
        obtain ⟨hfirst, hcall⟩ := (two_iff x s1 hplain).1 heq
        exact ⟨hfirst, hplain, hcall⟩
    · rintro ⟨hfirst, hplain, hcall⟩
      exact (two_iff x s1 hplain).2 ⟨hfirst, hcall⟩
  | s1 :: s2 :: s3 :: rest, _ => exact iff_of_false not_chain_three id

end Pipe

end EvilHaxe.Mods
