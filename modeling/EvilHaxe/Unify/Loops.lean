/-
Bindings are grounded when descending into types, through what monomorphs are bound to, always ends. Then no bound
monomorph is met in its type, and the loops over types return. A binding keeps them grounded if the monomorph is not met
in the type; that is what the loop of `link` and the check for recursion find out.
-/
import EvilHaxe.Unify.Adding
import Mathlib.Order.WellFounded
import EvilHaxe.Unify.Subtyping

namespace EvilHaxe.Unify

open Relation (ReflTransGen TransGen)

variable {D : Typedefs} {h h' : Heap} {m : Nat} {t c : Ty}

/-! ## Descending -/

/-- A part of a type, or what a monomorph is bound to. -/
def Below (h : Heap) (c t : Ty) : Prop := c ∈ t.children ∨ ∃ r, t = .tMono r ∧ h.type r = some c

/-- `c` is met when descending from `t`. -/
def Within (h : Heap) (c t : Ty) : Prop := ReflTransGen (Below h) c t

def Grounded (h : Heap) : Prop := WellFounded (Below h)

theorem below_tMono : Below h c (.tMono m) ↔ h.type m = some c := by
  constructor
  · rintro (hc | ⟨r, hr, hc⟩)
    · exact nomatch hc
    · exact Ty.tMono.inj hr ▸ hc
  · exact fun hc => .inr ⟨m, rfl, hc⟩

theorem below_congr (hm : ∀ r, t = .tMono r → h'.type r = h.type r) : Below h' c t ↔ Below h c t := by
  refine or_congr_right (exists_congr fun r => and_congr_right fun hr => ?_)
  rw [hm r hr]

theorem Grounded.congr (hg : Grounded h) (htype : ∀ x, h'.type x = h.type x) : Grounded h' :=
  Subrelation.wf (fun {_ _} hb => (below_congr fun r _ => htype r).1 hb) hg

theorem Ty.sizeOf_children (hc : c ∈ t.children) : sizeOf c < sizeOf t := by
  cases t with
  | tMono r => exact nomatch hc
  | tEnum e tl | tInst e tl | tType e tl | tAbstract e tl =>
    have := List.sizeOf_lt_of_mem (show c ∈ tl from hc)
    simp only [tEnum.sizeOf_spec, tInst.sizeOf_spec, tType.sizeOf_spec, tAbstract.sizeOf_spec]
    omega
  | tFun args ret =>
    rcases List.mem_append.1 hc with hc | hc
    · have := List.sizeOf_lt_of_mem hc
      simp only [tFun.sizeOf_spec]
      omega
    · obtain rfl := List.mem_singleton.1 hc
      simp only [tFun.sizeOf_spec]
      omega
  | tAnon fields =>
    obtain ⟨cf, hcf, rfl⟩ := List.mem_map.1 hc
    have h1 := List.sizeOf_lt_of_mem hcf
    have h2 : sizeOf cf.2 < sizeOf cf := by
      obtain ⟨name, t⟩ := cf
      simp only [Prod.mk.sizeOf_spec]
      omega
    simp only [tAnon.sizeOf_spec]
    omega
  | tDynamic t =>
    cases t with
    | none => exact nomatch hc
    | some t =>
      obtain rfl := List.mem_singleton.1 hc
      simp only [tDynamic.sizeOf_spec, Option.some.sizeOf_spec]
      omega
  | tLazy f =>
    obtain rfl := List.mem_singleton.1 hc
    simp only [tLazy.sizeOf_spec]
    omega

theorem grounded_empty : Grounded .empty :=
  Subrelation.wf (fun {_ _} hb => hb.elim Ty.sizeOf_children fun ⟨_, _, hr⟩ => nomatch hr) (measure sizeOf).wf

/-- No monomorph is met in the type that it is bound to. -/
theorem Grounded.acyclic (hg : Grounded h) (hm : h.type m = some t) : ¬ Within h (.tMono m) t := by
  intro hw
  have hloop : TransGen (Below h) (.tMono m) (.tMono m) := .tail' hw (below_tMono.2 hm)
  exact hg.transGen.irrefl.irrefl _ hloop

/-! ## Bindings -/

/-- A monomorph is bound to a type in which it is not met. -/
theorem Grounded.bind (hg : Grounded h) (hw : ¬ Within h (.tMono m) t)
    (htype : ∀ x, h'.type x = if x = m then some t else h.type x) : Grounded h' := by
  have hsame : ∀ {u c}, u ≠ .tMono m → (Below h' c u ↔ Below h c u) := fun {u _} hne =>
    below_congr fun r hr => by
      have hrm : r ≠ m := by
        rintro rfl
        exact hne hr
      rw [htype, if_neg hrm]
  have haway : ∀ u, ¬ Within h (.tMono m) u → Acc (Below h') u := fun u => by
    induction u using hg.induction with
    | _ u ih =>
      refine fun hu => ⟨u, fun c hc => ?_⟩
      have hc := (hsame fun heq => hu (heq ▸ .refl)).1 hc
      exact ih c hc fun hcw => hu (.tail hcw hc)
  have hacc : Acc (Below h') (.tMono m) := ⟨_, fun c hc => by
    rw [below_tMono, htype, if_pos rfl] at hc
    exact Option.some.inj hc ▸ haway t hw⟩
  refine ⟨fun u => ?_⟩
  induction u using hg.induction with
  | _ u ih =>
    by_cases hu : u = .tMono m
    · exact hu ▸ hacc
    · exact ⟨u, fun c hc => ih c ((hsame hu).1 hc)⟩

theorem Grounded.unbind (hg : Grounded h) : Grounded (h.setType m none) := by
  refine Subrelation.wf (fun {c u} hb => ?_) hg
  refine hb.imp id fun ⟨r, hr, hc⟩ => ⟨r, hr, ?_⟩
  rw [Heap.type_setType] at hc
  split at hc
  · exact nomatch hc
  · exact hc

/-- Chains of bound monomorphs lead from `t` to `m`. -/
inductive Alias (h : Heap) (m : Nat) : Ty → Prop where
  | here : Alias h m (.tMono m)
  | step {x : Nat} {t : Ty} : h.type x = some t → Alias h m t → Alias h m (.tMono x)

/-! ## The loops over types -/

theorem anyM_false {f : Ty → Option Bool} : ∀ {l : List Ty}, l.anyM f = some false → ∀ c ∈ l, f c = some false
  | [], _, _, hc => nomatch hc
  | a :: l, hl, c, hc => by
    rw [List.anyM] at hl
    obtain ⟨b, hb, hl⟩ := Option.bind_eq_some_iff.1 hl
    cases b with
    | true => exact nomatch hl
    | false =>
      rcases List.mem_cons.1 hc with rfl | hc
      · exact hb
      · exact anyM_false hl c hc

/-- The loop of `link` is right that a monomorph is not met. -/
theorem occurs_false : ∀ {n : Nat} {t : Ty}, occurs h m n t = some false → ¬ Within h (.tMono m) t
  | 0, _, hn => nomatch hn
  | n + 1, t, hn => by
    intro hw
    rcases hw.cases_tail with heq | ⟨c, hwc, hc⟩
    · subst heq
      simp [occurs] at hn
    · by_cases hmono : ∃ r, t = .tMono r
      · obtain ⟨r, rfl⟩ := hmono
        rw [below_tMono] at hc
        simp only [occurs, hc] at hn
        split at hn
        · exact nomatch hn
        · exact occurs_false hn hwc
      · have hchild := hc.resolve_right fun ⟨r, hr, _⟩ => hmono ⟨r, hr⟩
        have hn : t.children.anyM (occurs h m n) = some false := by
          cases t with
          | tMono r => exact absurd ⟨r, rfl⟩ hmono
          | _ => exact hn
        exact occurs_false (anyM_false hn c hchild) hwc

theorem anyM_mono {f g : Ty → Option Bool} : ∀ {l : List Ty} {b : Bool}, (∀ c ∈ l, ∀ b, f c = some b → g c = some b) →
    l.anyM f = some b → l.anyM g = some b
  | [], _, _, hl => hl
  | a :: l, b, hfg, hl => by
    rw [List.anyM] at hl ⊢
    obtain ⟨b', hb', hl⟩ := Option.bind_eq_some_iff.1 hl
    rw [hfg a (.head _) b' hb']
    cases b' with
    | true => exact hl
    | false => exact anyM_mono (fun c hc => hfg c (.tail _ hc)) hl

theorem occurs_mono : ∀ {n k : Nat} {t : Ty} {b : Bool}, occurs h m n t = some b → n ≤ k → occurs h m k t = some b
  | 0, _, _, _, hn, _ => nomatch hn
  | n + 1, 0, _, _, _, hle => nomatch hle
  | n + 1, k + 1, t, b, hn, hle => by
    have hle : n ≤ k := Nat.le_of_succ_le_succ hle
    cases t with
    | tMono r =>
      simp only [occurs] at hn ⊢
      split
      · rename_i hr
        rwa [if_pos hr] at hn
      · rename_i hr
        rw [if_neg hr] at hn
        split
        · rename_i htype
          rwa [htype] at hn
        · rename_i t htype
          rw [htype] at hn
          exact occurs_mono hn hle
    | _ => exact anyM_mono (fun c _ b hc => occurs_mono hc hle) hn

theorem anyM_occurs_returns : ∀ {l : List Ty}, (∀ c ∈ l, ∃ n b, occurs h m n c = some b) →
    ∃ n b, l.anyM (occurs h m n) = some b
  | [], _ => ⟨0, false, rfl⟩
  | a :: l, hl => by
    obtain ⟨n, b, hn⟩ := hl a (.head _)
    obtain ⟨k, b', hk⟩ := anyM_occurs_returns (l := l) fun c hc => hl c (.tail _ hc)
    refine ⟨max n k, if b then true else b', ?_⟩
    rw [List.anyM, occurs_mono hn (Nat.le_max_left n k)]
    cases b with
    | true => rfl
    | false => exact anyM_mono (fun c _ b hc => occurs_mono hc (Nat.le_max_right n k)) hk

/-- The loops over types return. -/
theorem Grounded.occurs_returns (hg : Grounded h) (m : Nat) (t : Ty) : ∃ n b, occurs h m n t = some b := by
  induction t using hg.induction with
  | _ t ih =>
    cases t with
    | tMono r =>
      by_cases hr : r = m
      · exact ⟨1, true, by simp [occurs, hr]⟩
      · cases htype : h.type r with
        | none => exact ⟨1, false, by simp [occurs, hr, htype]⟩
        | some t =>
          obtain ⟨n, b, hn⟩ := ih t (below_tMono.2 htype)
          exact ⟨n + 1, b, by simp [occurs, hr, htype, hn]⟩
    | _ =>
      obtain ⟨n, b, hn⟩ := anyM_occurs_returns fun c hc => ih c (.inl hc)
      exact ⟨n + 1, b, hn⟩

/-- Typedefs are not recursive: expanding them ends, and what one stands for has no monomorphs but those it is given. -/
structure TypedefsEnd (D : Typedefs) : Prop where
  ends : WellFounded fun c t => followOnce D .empty t = some c
  given : ∀ name tl r, Within .empty (.tMono r) (D name tl) → ∃ t ∈ tl, Within .empty (.tMono r) t

/-- A step of `follow` at another type than a monomorph does not depend on bindings, and leads to no other monomorphs. -/
theorem followOnce_given (hD : TypedefsEnd D) (ht : ∀ r, t ≠ .tMono r) (hstep : followOnce D h t = some c) :
    followOnce D .empty t = some c ∧ ∀ r, Within .empty (.tMono r) c → Within .empty (.tMono r) t := by
  unfold followOnce at hstep ⊢
  split at hstep
  · exact absurd rfl (ht _)
  · obtain rfl := Option.some.inj hstep
    exact ⟨rfl, fun r hr => .tail hr (.inl (.head _))⟩
  · obtain rfl := Option.some.inj hstep
    refine ⟨rfl, fun r hr => ?_⟩
    obtain ⟨a, ha, hw⟩ := hD.given _ _ r hr
    exact .tail hw (.inl ha)
  · obtain rfl := Option.some.inj hstep
    exact ⟨rfl, fun r hr => .tail hr (.inl (.head _))⟩
  · exact nomatch hstep

theorem Within.of_empty (hw : Within .empty c t) : Within h c t :=
  ReflTransGen.mono (fun _ _ hb => hb.imp id fun ⟨_, _, hr⟩ => nomatch hr) _ _ hw

/-- Following a type ends if it does for the monomorphs in it. -/
theorem acc_follow (hD : TypedefsEnd D) (t : Ty) :
    (∀ r, Within .empty (.tMono r) t → Acc (fun c t => followOnce D h t = some c) (.tMono r)) →
      Acc (fun c t => followOnce D h t = some c) t := by
  induction t using hD.ends.induction with
  | _ t ih =>
    intro hr
    by_cases hmono : ∃ r, t = .tMono r
    · obtain ⟨r, rfl⟩ := hmono
      exact hr r .refl
    · refine ⟨t, fun c hc => ?_⟩
      obtain ⟨hstep, hgiven⟩ := followOnce_given hD (fun r heq => hmono ⟨r, heq⟩) hc
      exact ih c hstep fun r hw => hr r (hgiven r hw)

theorem Grounded.follow_ends (hg : Grounded h) (hD : TypedefsEnd D) :
    WellFounded fun c t => followOnce D h t = some c := by
  have hmono : ∀ u, ∀ r, u = .tMono r → Acc (fun c t => followOnce D h t = some c) u := fun u => by
    induction u using hg.transGen.induction with
    | _ u ih =>
      rintro r rfl
      refine ⟨_, fun c hc => acc_follow hD c fun r' hr' => ih _ ?_ r' rfl⟩
      exact .tail' hr'.of_empty (below_tMono.2 hc)
  exact ⟨fun t => acc_follow hD t fun r _ => hmono _ r rfl⟩

/-- `follow` returns. -/
theorem Grounded.follow_returns (hg : Grounded h) (hD : TypedefsEnd D) (t : Ty) : ∃ n c, follow D n h t = some c := by
  induction t using (hg.follow_ends hD).induction with
  | _ t ih =>
    cases ht : followOnce D h t with
    | none => exact ⟨1, t, by simp [follow, ht]⟩
    | some t' =>
      obtain ⟨n, c, hn⟩ := ih t' ht
      exact ⟨n + 1, c, by simp [follow, ht, hn]⟩

end EvilHaxe.Unify

/-! Bindings stay grounded over runs of operations on monomorphs, those that `unify` makes in its checks and those that fail
included. `link` and the closing of a structure look whether the monomorph is met in the type; that it is not is a
condition where a monomorph is bound by a call of `bind`, where `close` binds it to the only type it is below, and where
the check of its up constraints could have made it. -/

namespace EvilHaxe.Unify

variable {C : Context} {h h' : Heap} {m : Nat} {t : Ty}

/-! ## Conditions -/

/-- `unify` binds a monomorph by `link` only. -/
def OnlyLinks (C : Context) : Prop := ∀ h a b m t, .bind m t ∉ (C.unify h a b).1

def Event.Grounds (C : Context) : Event → Prop
  | .asked h (.bind m t) => Alias h m t ∨ ¬ Within h (.tMono m) t
  | .call h (.close m) =>
    ∀ n t name, classifyDownConstraints C.typedefs n h m = some (.cTypes [(t, name)]) → ¬ Within h (.tMono m) t
  | .binds h h1 m t => ¬ Within h (.tMono m) t → ¬ Within h1 (.tMono m) t
  | _ => True

/-! ## Operations -/

/-- A call of `bind` by which no loop arises at once. -/
def Op.Admissible (h : Heap) : Op → Prop
  | .bind m t => Alias h m t ∨ ¬ Within h (.tMono m) t
  | _ => True

/-- The operation binds no monomorph anew. -/
def Op.Free (h : Heap) : Op → Prop
  | .bind m _ => h.type m = none
  | _ => True

/-- Operations done by `step` keep bindings grounded, and those that bind only what is unbound keep the bindings. -/
def Grounding (C : Context) (step : Heap → Op → Option Out) : Prop :=
  ∀ h op out, step h op = some out → (∀ e ∈ out.events, e.Grounds C) → Grounded h → op.Admissible h →
    Grounded out.heap ∧ (op.Free h → Extends h out.heap)

theorem runOps_grounded {step : Heap → Op → Option Out} (hstep : Grounding C step) : ∀ {ops : List Op} {h : Heap} {out : Out},
    runOps step h ops = some out → (∀ e ∈ out.events, e.Grounds C) → Grounded h →
      Grounded out.heap ∧ ((∀ m t, .bind m t ∉ ops) → Extends h out.heap)
  | [], h, out, hrun, _, hg => by
    obtain rfl := Option.some.inj hrun
    exact ⟨hg, fun _ => .refl h⟩
  | op :: ops, h, out, hrun, hmeets, hg => by
    obtain ⟨r, hr, hrun⟩ := Option.bind_eq_some_iff.1 hrun
    obtain ⟨r', hr', hrun⟩ := Option.bind_eq_some_iff.1 hrun
    obtain rfl := Option.some.inj hrun
    have hadm : op.Admissible h := by
      cases op with
      | bind m t => exact hmeets (.asked h (.bind m t)) (List.mem_append_left _ (.head _))
      | _ => trivial
    obtain ⟨hg1, hext1⟩ := hstep h op r hr (fun e he => hmeets e (List.mem_append_left _ (.tail _ he))) hg hadm
    obtain ⟨hg2, hext2⟩ := runOps_grounded hstep hr' (fun e he => hmeets e (List.mem_append_right _ he)) hg1
    refine ⟨hg2, fun hops => (hext1 ?_).trans (hext2 fun m t hmem => hops m t (.tail _ hmem))⟩
    cases op with
    | bind m t => exact absurd (.head _) (hops m t)
    | _ => trivial

theorem runChecks_grounded {n : Nat} (hC : OnlyLinks C) (hstep : Grounding C (exec C n)) :
    ∀ {l : List (Ty × Ty)} {h : Heap} {out : Out}, runChecks C (exec C n) h l = some out → (∀ e ∈ out.events, e.Grounds C) →
      Grounded h → Grounded out.heap ∧ Extends h out.heap
  | [], h, out, hrun, _, hg => by
    obtain rfl := Option.some.inj hrun
    exact ⟨hg, .refl h⟩
  | (a, b) :: l, h, out, hrun, hmeets, hg => by
    unfold runChecks at hrun
    obtain ⟨r, hr, hrun⟩ := Option.bind_eq_some_iff.1 hrun
    have hfirst := fun (hr' : ∀ e ∈ r.events, e.Grounds C) => runOps_grounded hstep hr hr' hg
    split at hrun
    · obtain ⟨r', hr', rfl⟩ := Option.map_eq_some_iff.1 hrun
      obtain ⟨hg1, hext1⟩ := hfirst fun e he => hmeets e (List.mem_append_left _ he)
      obtain ⟨hg2, hext2⟩ := runChecks_grounded hC hstep hr' (fun e he => hmeets e (List.mem_append_right _ he)) hg1
      exact ⟨hg2, (hext1 (hC h a b)).trans hext2⟩
    · obtain rfl := Option.some.inj hrun
      obtain ⟨hg1, hext1⟩ := hfirst fun e he => hmeets e (List.mem_append_left _ he)
      exact ⟨hg1, hext1 (hC h a b)⟩

/-! ## Binding to a type -/

theorem type_doBind (h : Heap) (m : Nat) (t : Ty) (x : Nat) : (doBind h m t).type x = if x = m then some t else h.type x := by
  simp [doBind]

theorem Grounded.doBind (hg : Grounded h) (hw : ¬ Within h (.tMono m) t) : Grounded (doBind h m t) :=
  hg.bind hw (type_doBind h m t)

theorem doBind_extends (hm : h.type m = none) : Extends h (doBind h m t) := by
  intro x t' hx
  have hne : x ≠ m := by
    rintro rfl
    exact nomatch hm.symm.trans hx
  rw [type_doBind, if_neg hne, hx]

theorem bindType_grounded {n : Nat} {out : Out} (hC : OnlyLinks C) (hstep : Grounding C (exec C n)) (hg : Grounded h)
    (hw : ¬ Within h (.tMono m) t) (hrun : bindType C n (exec C n) h m t = some out) (hmeets : ∀ e ∈ out.events, e.Grounds C) :
    Grounded out.heap ∧ (h.type m = none → Extends h out.heap) := by
  unfold bindType at hrun
  obtain ⟨ups, -, hrun⟩ := Option.bind_eq_some_iff.1 hrun
  obtain ⟨r1, hr1, hrun⟩ := Option.bind_eq_some_iff.1 hrun
  split at hrun
  · obtain rfl := Option.some.inj hrun
    obtain ⟨hg1, hext1⟩ := runChecks_grounded hC hstep hr1 hmeets hg
    exact ⟨hg1, fun _ => hext1⟩
  · obtain ⟨kind, -, hrun⟩ := Option.bind_eq_some_iff.1 hrun
    obtain ⟨r2, hr2, hrun⟩ := Option.bind_eq_some_iff.1 hrun
    have hevents : out.events = r1.events ++ .binds h r1.heap m t :: r2.events := by
      split at hrun <;> exact Option.some.inj hrun ▸ rfl
    rw [hevents] at hmeets
    obtain ⟨hg1, hext1⟩ := runChecks_grounded hC hstep hr1 (fun e he => hmeets e (List.mem_append_left _ he)) hg
    have hw1 : ¬ Within r1.heap (.tMono m) t := hmeets _ (List.mem_append_right _ (.head _)) hw
    have htentative : Grounded (r1.heap.setType m (some t)) := hg1.bind hw1 (Heap.type_setType _ _ · _)
    obtain ⟨hg2, hext2⟩ := runChecks_grounded hC hstep hr2 (fun e he => hmeets e (List.mem_append_right _ (.tail _ he))) htentative
    have hm2 : r2.heap.type m = some t := hext2 m t (by simp)
    -- what is bound in `h` is not `m`, and stays bound
    have hkept : h.type m = none → ∀ x t', h.type x = some t' → x ≠ m ∧ r2.heap.type x = some t' := by
      intro hm x t' hx
      have hne : x ≠ m := by
        rintro rfl
        exact nomatch hm.symm.trans hx
      exact ⟨hne, hext2 x t' (by simpa [hne] using hext1 x t' hx)⟩
    split at hrun
    · obtain rfl := Option.some.inj hrun
      refine ⟨hg2.congr fun x => ?_, fun hm x t' hx => ?_⟩
      · rw [type_doBind]
        split
        · rename_i hx
          rw [hx, hm2]
        · rfl
      · obtain ⟨hne, hx2⟩ := hkept hm x t' hx
        rw [type_doBind, if_neg hne, hx2]
    · obtain rfl := Option.some.inj hrun
      refine ⟨hg2.unbind, fun hm x t' hx => ?_⟩
      obtain ⟨hne, hx2⟩ := hkept hm x t' hx
      rw [Heap.type_setType, if_neg hne, hx2]

/-! ## The operations -/

theorem foldl_addDownConstraint_type (m : Nat) : ∀ (l : List Constraint) (h : Heap) (x : Nat),
    (l.foldl (fun h c => addDownConstraint h m c) h).type x = h.type x
  | [], _, _ => rfl
  | c :: l, h, x => by rw [List.foldl_cons, foldl_addDownConstraint_type, addDownConstraint_type]

theorem bindMono_type (h : Heap) (m m2 x : Nat) :
    (bindMono h m m2).type x = if x = m then some (.tMono m2) else h.type x := by
  rw [bindMono, type_doBind, (foldl_copyUp _ _).1.type, foldl_addDownConstraint_type]

theorem constrainToType_type {D : Typedefs} {n : Nat} {name : Option String} (hadd : constrainToType D n h m name t = some h')
    (x : Nat) : h'.type x = h.type x := by
  obtain ⟨l, -, rfl⟩ := Option.map_eq_some_iff.1 hadd
  exact foldl_addDownConstraint_type m l h x

theorem mem_mapM {α β : Type} {f : α → Option β} : ∀ {l : List α} {l' : List β} {b : β}, l.mapM f = some l' → b ∈ l' →
    ∃ a ∈ l, f a = some b
  | [], _, _, hl, hb => by
    obtain rfl := Option.some.inj hl
    exact nomatch hb
  | a :: l, l', b, hl, hb => by
    rw [List.mapM_cons] at hl
    obtain ⟨b', hb', hl⟩ := Option.bind_eq_some_iff.1 hl
    obtain ⟨bs, hbs, hl⟩ := Option.bind_eq_some_iff.1 hl
    obtain rfl := Option.some.inj hl
    rcases List.mem_cons.1 hb with rfl | hb
    · exact ⟨a, .head _, hb'⟩
    · obtain ⟨a', ha', hfa⟩ := mem_mapM hbs hb
      exact ⟨a', .tail _ ha', hfa⟩

theorem spawnOps_noBind {n : Nat} {map : Ty → Ty} {params : List (String × List Ty)} {ops : List Op}
    (hops : spawnOps n h map params = some ops) (m : Nat) (t : Ty) : .bind m t ∉ ops := by
  obtain ⟨constrs, hconstrs, hops⟩ := Option.bind_eq_some_iff.1 hops
  obtain rfl := Option.some.inj hops
  intro hmem
  rcases List.mem_append.1 hmem with hmem | hmem
  · obtain ⟨_, -, heq⟩ := List.mem_map.1 hmem
    exact nomatch heq
  · obtain ⟨l, hl, hmem⟩ := List.mem_flatten.1 hmem
    obtain ⟨⟨mono, path, constr⟩, -, hl⟩ := mem_mapM hconstrs hl
    obtain ⟨t', -, ht'⟩ := mem_mapM hl hmem
    obtain ⟨_, -, heq⟩ := Option.map_eq_some_iff.1 ht'
    exact nomatch heq

theorem bindMono_grounded {n m2 : Nat} {out : Out} (hstep : Grounding C (exec C n)) (hg : Grounded h)
    (hadm : Alias h m (.tMono m2) ∨ ¬ Within h (.tMono m) (.tMono m2))
    (hrun : perform C n (exec C n) h (.bind m (.tMono m2)) = some out) (hmeets : ∀ e ∈ out.events, e.Grounds C) :
    Grounded out.heap ∧ (h.type m = none → Extends h out.heap) := by
  simp only [perform] at hrun
  split at hrun
  · obtain rfl := Option.some.inj hrun
    exact ⟨hg, fun _ => .refl h⟩
  · rename_i hne
    split at hrun
    · rename_i hm2
      obtain rfl := Option.some.inj hrun
      have hw : ¬ Within h (.tMono m) (.tMono m2) := by
        intro hw
        rcases hw.cases_tail with heq | ⟨c, -, hc⟩
        · exact hne (Ty.tMono.inj heq).symm
        · exact nomatch hm2.symm.trans (below_tMono.1 hc)
      refine ⟨hg.bind hw (bindMono_type h m m2), fun hm x t hx => ?_⟩
      have hxm : x ≠ m := by
        rintro rfl
        exact nomatch hm.symm.trans hx
      exact (bindMono_type h m m2 x).trans ((if_neg hxm).trans hx)
    · rename_i t htype
      refine hstep h _ out hrun hmeets hg ?_
      rcases hadm with ha | hw
      · cases ha with
        | here => exact absurd rfl hne
        | step hx ha =>
          obtain rfl := Option.some.inj (htype.symm.trans hx)
          exact .inl ha
      · exact .inr fun hw' => hw (.tail hw' (below_tMono.2 htype))

theorem Alias.isMono (ha : Alias h m t) : ∃ r, t = .tMono r := by
  cases ha with
  | here => exact ⟨m, rfl⟩
  | step => exact ⟨_, rfl⟩

theorem closeUnbound_grounded {n : Nat} {out : Out} (hg : Grounded h) (hm : h.type m = none)
    (hclose : ∀ t name, classifyDownConstraints C.typedefs n h m = some (.cTypes [(t, name)]) → ¬ Within h (.tMono m) t)
    (hrun : closeUnbound C n h m = some out) : Grounded out.heap ∧ Extends h out.heap := by
  have hdone : some (Out.done h) = some out → Grounded out.heap ∧ Extends h out.heap := by
    intro heq
    obtain rfl := Option.some.inj heq
    exact ⟨hg, .refl h⟩
  unfold closeUnbound at hrun
  obtain ⟨kind, hkind, hrun⟩ := Option.bind_eq_some_iff.1 hrun
  split at hrun
  · exact hdone hrun
  · obtain rfl := Option.some.inj hrun
    exact ⟨hg.doBind (hclose _ _ hkind), doBind_extends hm⟩
  · exact hdone hrun
  · exact hdone hrun
  · rename_i fields isOpen
    obtain ⟨loops, hloops, hrun⟩ := Option.bind_eq_some_iff.1 hrun
    cases loops with
    | true =>
      obtain rfl := Option.some.inj hrun
      exact ⟨hg, .refl h⟩
    | false =>
      obtain rfl := Option.some.inj hrun
      refine ⟨hg.doBind fun hw => ?_, doBind_extends hm⟩
      rcases hw.cases_tail with heq | ⟨c, hw, hc | ⟨r, heq, -⟩⟩
      · exact nomatch heq
      · exact occurs_false (anyM_false hloops c hc) hw
      · exact nomatch heq

theorem linkUnbound_grounded {n e : Nat} {b : Ty} {out : Out} (hstep : Grounding C (exec C n)) (hg : Grounded h)
    (he : h.type e = none) (hrun : linkUnbound C n (exec C n) h e b = some out) (hmeets : ∀ e ∈ out.events, e.Grounds C) :
    Grounded out.heap ∧ Extends h out.heap := by
  have hsame : out.heap = h → Grounded out.heap ∧ Extends h out.heap := by
    intro heq
    rw [heq]
    exact ⟨hg, .refl h⟩
  unfold linkUnbound at hrun
  obtain ⟨loops, hloops, hrun⟩ := Option.bind_eq_some_iff.1 hrun
  cases loops with
  | true =>
    obtain ⟨c, -, hrun⟩ := Option.bind_eq_some_iff.1 hrun
    split at hrun
    · split at hrun <;> exact hsame (Option.some.inj hrun ▸ rfl)
    · exact hsame (Option.some.inj hrun ▸ rfl)
  | false =>
    rw [if_neg Bool.false_ne_true] at hrun
    split at hrun
    · exact hsame (Option.some.inj hrun ▸ rfl)
    · obtain ⟨hg', hext⟩ := hstep h (.bind e b) out hrun hmeets hg (.inr (occurs_false hloops))
      exact ⟨hg', hext he⟩

theorem perform_grounded {n : Nat} {op : Op} {out : Out} (hC : OnlyLinks C) (hstep : Grounding C (exec C n))
    (hcall : Event.Grounds C (.call h op)) (hrun : perform C n (exec C n) h op = some out)
    (hmeets : ∀ e ∈ out.events, e.Grounds C) (hg : Grounded h) (hadm : op.Admissible h) :
    Grounded out.heap ∧ (op.Free h → Extends h out.heap) := by
  have hsame : ∀ {h' : Heap}, (∀ x, h'.type x = h.type x) → Grounded h' ∧ (op.Free h → Extends h h') := fun htype =>
    ⟨hg.congr htype, fun _ => .of_eq htype⟩
  cases op with
  | create =>
    obtain rfl := Option.some.inj hrun
    exact hsame fun _ => rfl
  | addUpConstraint m e =>
    obtain rfl := Option.some.inj hrun
    exact hsame (addUpConstraint_grows h m e).type
  | addDownConstraint m c =>
    obtain rfl := Option.some.inj hrun
    exact hsame (addDownConstraint_type h m c)
  | constrainToType m name t =>
    obtain ⟨h', hadd, rfl⟩ := Option.map_eq_some_iff.1 hrun
    exact hsame (constrainToType_type hadd)
  | spawn map params =>
    obtain ⟨ops, hops, hrun⟩ := Option.bind_eq_some_iff.1 hrun
    obtain ⟨hg', hext⟩ := runOps_grounded hstep hrun hmeets hg
    exact ⟨hg', fun _ => hext (spawnOps_noBind hops)⟩
  | bind m t =>
    have hw : (∀ r, t ≠ .tMono r) → ¬ Within h (.tMono m) t := fun ht =>
      hadm.resolve_left fun ha => ha.isMono.elim fun r hr => ht r hr
    cases t with
    | tMono m2 => exact bindMono_grounded hstep hg hadm hrun hmeets
    | tAnon fields =>
      simp only [perform] at hrun
      split at hrun
      · obtain ⟨h', hadd, hrun⟩ := Option.bind_eq_some_iff.1 hrun
        have htype := constrainToType_type hadd
        obtain ⟨hg', hext⟩ := hstep h' _ out hrun hmeets (hg.congr htype) trivial
        exact ⟨hg', fun _ => (Extends.of_eq htype).trans (hext trivial)⟩
      · exact bindType_grounded hC hstep hg (hw nofun) hrun hmeets
    | _ => exact bindType_grounded hC hstep hg (hw nofun) hrun hmeets
  | close m =>
    simp only [perform] at hrun
    split at hrun
    · obtain rfl := Option.some.inj hrun
      exact hsame fun _ => rfl
    · rename_i hm
      obtain ⟨hg', hext⟩ := closeUnbound_grounded hg hm (hcall n) hrun
      exact ⟨hg', fun _ => hext⟩
  | link e b =>
    simp only [perform] at hrun
    split at hrun
    · obtain rfl := Option.some.inj hrun
      exact hsame fun _ => rfl
    · rename_i he
      obtain ⟨hg', hext⟩ := linkUnbound_grounded hstep hg he hrun hmeets
      exact ⟨hg', fun _ => hext⟩

theorem exec_grounding (hC : OnlyLinks C) : ∀ n, Grounding C (exec C n)
  | 0 => fun _ _ _ hrun => nomatch hrun
  | n + 1 => fun h op out hrun hmeets hg hadm => by
    obtain ⟨r, hr, rfl⟩ := Option.map_eq_some_iff.1 hrun
    show Grounded r.heap ∧ (op.Free h → Extends h r.heap)
    exact perform_grounded hC (exec_grounding hC n) (hmeets _ (.head _)) hr (fun e he => hmeets e (.tail _ he)) hg hadm

/-! ## Runs -/

/-- After a run that meets the conditions no monomorph is met in what it is bound to; descending into types ends, the loop
of `link` returns, and so does `follow`. -/
theorem bindings_grounded (hC : OnlyLinks C) {n : Nat} {ops : List Op} {out : Out} (hrun : run C n ops = some out)
    (hmeets : ∀ e ∈ out.events, e.Grounds C) :
    (∀ m t, out.heap.type m = some t → ¬ Within out.heap (.tMono m) t) ∧ Grounded out.heap ∧
      (∀ m t, ∃ k b, occurs out.heap m k t = some b) ∧
      (TypedefsEnd C.typedefs → ∀ t, ∃ k c, follow C.typedefs k out.heap t = some c) := by
  have hg := (runOps_grounded (exec_grounding hC n) hrun hmeets grounded_empty).1
  exact ⟨fun _ _ => hg.acyclic, hg, hg.occurs_returns, hg.follow_returns⟩

theorem onlyLinks_plainContext : OnlyLinks plainContext := by
  intro h a b m t hmem
  unfold plainContext at hmem
  dsimp only at hmem
  split at hmem <;> simp at hmem

/-- `B` is bound to an array of `A`, where `A:Comparable<A>`. -/
def boundThrough : List Op :=
  [.spawn id [("A", [.tInst "Comparable" [.tInst "A" []]]), ("B", [])], .link 1 (.tInst "Array" [.tMono 0])]

theorem bindings_grounded_boundThrough : ∃ out, run plainContext 9 boundThrough = some out ∧
    (∀ e ∈ out.events, e.Grounds plainContext) ∧ out.heap.type 1 = some (.tInst "Array" [.tMono 0]) ∧
    ¬ Within out.heap (.tMono 1) (.tInst "Array" [.tMono 0]) := by
  let self : Ty := .tInst "Comparable" [.tMono 0]
  let arr : Ty := .tInst "Array" [.tMono 0]
  let h1 := addDownConstraint Heap.empty.create.create 0 (.mType self (some "A"))
  let both (h : Heap) (op : Op) (es : List Event) : List Event := .asked h op :: .call h op :: es
  let out : Out := ⟨doBind (h1.setType 1 (some arr)) 1 arr, true,
    both .empty (.spawn id [("A", [.tInst "Comparable" [.tInst "A" []]]), ("B", [])]) <| both .empty .create <|
      both Heap.empty.create .create <| both Heap.empty.create.create (.constrainToType 0 (some "A") self) <|
        both h1 (.link 1 arr) [.call h1 (.bind 1 arr), .binds h1 h1 1 arr]⟩
  have hrun : run plainContext 9 boundThrough = some out := rfl
  have hmeets : ∀ e ∈ out.events, e.Grounds plainContext := by
    simp only [out, both, List.forall_mem_cons]
    exact ⟨trivial, trivial, trivial, trivial, trivial, trivial, trivial, trivial, trivial, trivial, trivial, id,
      fun _ he => nomatch he⟩
  exact ⟨out, hrun, hmeets, rfl, (bindings_grounded onlyLinks_plainContext hrun hmeets).1 1 arr rfl⟩

/-- With `T:Comparable<T>`, the monomorph of `T` is closed. -/
def comparable : List Op := [.spawn id [("T", [.tInst "Comparable" [.tInst "T" []]])], .close 0]

theorem comparable_loops : ∃ out, run plainContext 9 comparable = some out ∧ out.ok = true ∧
    out.heap.type 0 = some (.tInst "Comparable" [.tMono 0]) ∧
    Within out.heap (.tMono 0) (.tInst "Comparable" [.tMono 0]) ∧ ∀ k, occurs out.heap 1 k (.tMono 0) = none := by
  refine ⟨_, rfl, rfl, rfl, .single (.inl List.mem_cons_self), fun k => ?_⟩
  generalize hh : Out.heap _ = h
  have htype : h.type 0 = some (.tInst "Comparable" [.tMono 0]) := hh ▸ rfl
  have hboth : occurs h 1 k (.tMono 0) = none ∧ occurs h 1 k (.tInst "Comparable" [.tMono 0]) = none := by
    induction k with
    | zero => exact ⟨rfl, rfl⟩
    | succ k ih => exact ⟨by simp [occurs, htype, ih.2], by simp [occurs, Ty.children, List.anyM, ih.1]⟩
  exact hboth.1

end EvilHaxe.Unify
