/-
A subtyping of types under bindings, decided without binding anything, is what the constraints rely on of `unify`; and
`unify` of the simplest types.
-/
import EvilHaxe.Unify.Tracking

namespace EvilHaxe.Unify

variable {h h' : Heap} {a b : Ty}

/-- Below a type are the type itself and structures with more fields. -/
inductive Sub (D : Typedefs) (h : Heap) : Ty → Ty → Prop where
  | refl (a : Ty) : Sub D h a a
  | left {a a' b : Ty} : followOnce D h a = some a' → Sub D h a' b → Sub D h a b
  | right {a b b' : Ty} : followOnce D h b = some b' → Sub D h a b' → Sub D h a b
  | width {fields fields' : List (String × Ty)} : (∀ cf ∈ fields', cf ∈ fields) → Sub D h (.tAnon fields) (.tAnon fields')

namespace Sub

variable {D : Typedefs}

theorem left_inv {a' : Ty} (hs : Sub D h a b) (ha : followOnce D h a = some a') : Sub D h a' b := by
  induction hs with
  | refl a => exact .right ha (.refl a')
  | left hstep hs =>
    obtain rfl := Option.some.inj (hstep.symm.trans ha)
    exact hs
  | right hstep _ ih => exact .right hstep (ih ha)
  | width _ => exact nomatch ha

theorem right_inv {b' : Ty} (hs : Sub D h a b) (hb : followOnce D h b = some b') : Sub D h a b' := by
  induction hs with
  | refl b => exact .left hb (.refl b')
  | left hstep _ ih => exact .left hstep (ih hb)
  | right hstep hs =>
    obtain rfl := Option.some.inj (hstep.symm.trans hb)
    exact hs
  | width _ => exact nomatch hb

theorem narrow {fields fields' : List (String × Ty)} (hs : Sub D h a (.tAnon fields)) (hsub : ∀ cf ∈ fields', cf ∈ fields) :
    Sub D h a (.tAnon fields') := by
  generalize hb : Ty.tAnon fields = b at hs
  induction hs with
  | refl _ =>
    subst hb
    exact .width hsub
  | left hstep _ ih => exact .left hstep (ih hb)
  | right hstep _ =>
    subst hb
    exact nomatch hstep
  | width hw =>
    obtain rfl := Ty.tAnon.inj hb
    exact .width fun cf hcf => hw cf (hsub cf hcf)

theorem later (hs : Sub D h a b) (he : Extends h h') : Sub D h' a b := by
  induction hs with
  | refl a => exact .refl a
  | left hstep _ ih => exact .left (followOnce_extends he hstep) ih
  | right hstep _ ih => exact .right (followOnce_extends he hstep) ih
  | width hw => exact .width hw

end Sub

def sameBasic : Ty → Ty → Bool
  | .tAbstract a [], .tAbstract b [] => a == b
  | _, _ => false

open Classical in
/-- Unification by `Sub`, without bindings. -/
noncomputable def subContext : Context where
  typedefs _ _ := .tDynamic none
  unify h a b := ([], sameBasic a b || decide (Sub (fun _ _ => .tDynamic none) h a b))

theorem unifies_subContext : Unifies subContext h a b ↔ Sub subContext.typedefs h a b := by
  simp only [Unifies, subContext, Bool.or_eq_true, decide_eq_true_eq]
  refine ⟨fun hs => hs.elim (fun hb => ?_) id, .inr⟩
  unfold sameBasic at hb
  split at hb
  · obtain rfl := eq_of_beq hb
    exact .refl _
  · exact nomatch hb

theorem lawful_subContext : Lawful subContext where
  left h a a' b ha := by
    rw [unifies_subContext, unifies_subContext]
    exact ⟨fun hs => hs.left_inv ha, fun hs => .left ha hs⟩
  right h a b b' hb := by
    rw [unifies_subContext, unifies_subContext]
    exact ⟨fun hs => hs.right_inv hb, fun hs => .right hb hs⟩
  refl h a := unifies_subContext.2 (.refl a)
  width h a fields fields' hs hsub := unifies_subContext.2 ((unifies_subContext.1 hs).narrow hsub)
  persists h a b n out h' hu hrun he := by
    obtain rfl : Out.done h = out := Option.some.inj hrun
    exact unifies_subContext.2 ((unifies_subContext.1 hu).later he)

/-- `unify` of classes and abstracts without parameters. -/
def plainContext : Context where
  typedefs _ _ := .tDynamic none
  unify h a b :=
    match follow (fun _ _ => .tDynamic none) 9 h a, follow (fun _ _ => .tDynamic none) 9 h b with
    | some (.tMono m), some b => ([.link m b], true)
    | some a, some (.tMono m) => ([.link m a], true)
    | some (.tInst c []), some (.tInst d []) => ([], c == d)
    | some (.tAbstract c []), some (.tAbstract d []) => ([], c == d)
    | _, _ => ([], false)

end EvilHaxe.Unify
