/-
No constraint on a monomorph is lost in a run that meets the conditions under which its lists keep them: an operation, and
each one it makes in turn, keeps the stated constraints tracked and tracks those it states.
-/
import EvilHaxe.Unify.Adding
import EvilHaxe.Unify.Subtyping

namespace EvilHaxe.Unify

variable {C : Context} {h h' : Heap} {m : Nat} {a b t : Ty}

/-! ## A monomorph is bound to a type -/

/-- `m` is bound to `t`: its up constraints have been checked when it still is unbound in `h1`; then it has the type while
`ts` are unified with, and that leads to `h2`. -/
structure Binding (C : Context) (h1 h2 : Heap) (m : Nat) (t : Ty) : Prop where
  unbound : h1.type m = none
  type : ∀ x, t ≠ .tMono x
  solid : Solid C.typedefs h1 t
  up : ∀ c, Collects C.typedefs h1 m c → Settled C h1 c.1 t
  later : Extends (h1.setType m (some t)) h2
  kept : ∀ p, Tracked C (h1.setType m (some t)) p → Tracked C h2 p
  down : ∀ t2, Says C.typedefs (h1.setType m (some t)) (h1.down m) t2 → Settled C h2 t t2
  downBound : ∀ x name t2, .mMono x name ∈ h1.down m → (h1.setType m (some t)).type x = some t2 →
    Solid C.typedefs (h1.setType m (some t)) t2 → Settled C h2 t t2

namespace Binding

variable {h1 h2 : Heap}

theorem given (hb : Binding C h1 h2 m t) : Extends h1 (h1.setType m (some t)) := .setType hb.unbound t

theorem has (_ : Binding C h1 h2 m t) : (h1.setType m (some t)).type m = some t := by simp

theorem has_after (hb : Binding C h1 h2 m t) : h2.type m = some t := hb.later m t hb.has

theorem type_of_ne (_ : Binding C h1 h2 m t) {x : Nat} (hx : x ≠ m) : (h1.setType m (some t)).type x = h1.type x := by simp [hx]

theorem root (hb : Binding C h1 h2 m t) {x r : Nat} (hr : Root h1 x r) : Root (h1.setType m (some t)) x r := by
  refine hr.extends hb.given fun y => ?_
  by_cases hrm : r = m
  · subst hrm
    rw [hb.has]
    exact fun heq => hb.type y (Option.some.inj heq)
  · rw [hb.type_of_ne hrm]
    exact hr.end y

theorem root_after (hb : Binding C h1 h2 m t) {x : Nat} (hr : Root h1 x m) : Root h2 x m :=
  (hb.root hr).extends hb.later fun y => by
    rw [hb.has_after]
    exact fun heq => hb.type y (Option.some.inj heq)

theorem solidMono (hb : Binding C h1 h2 m t) : Solid C.typedefs (h1.setType m (some t)) (.tMono m) :=
  Leads.solid_back (.mono hb.has) (hb.solid.extends hb.given)

theorem settled_up (hC : Lawful C) (hb : Binding C h1 h2 m t) {c : Ty × Option String} (hc : Collects C.typedefs h1 m c) :
    Settled C (h1.setType m (some t)) c.1 (.tMono m) :=
  (Leads.settled_right hC (.mono hb.has)).2 ((hb.up c hc).extends hb.given)

theorem settled_down (hC : Lawful C) (hb : Binding C h1 h2 m t) {t2 : Ty} (hset : Settled C h2 t t2) :
    Settled C h2 (.tMono m) t2 :=
  (Leads.settled_left hC (.mono hb.has_after)).2 hset

/-- `m` is below a bound monomorph. -/
theorem monoTracked_left (hC : Lawful C) (hb : Binding C h1 h2 m t) {r2 : Nat} (ht : MonoTracked C h1 m r2)
    (hbound : h1.type r2 ≠ none) : MonoTracked C h2 m r2 := by
  obtain ⟨t2, htype⟩ := Option.ne_none_iff_exists'.1 hbound
  have hsolid := ht.solidRight hbound
  have hafter : h2.type r2 = some t2 := hb.later _ _ (hb.given _ _ htype)
  refine ⟨fun hn => ?_, fun hn => ?_, fun _ _ => ?_, fun _ => hb.solidMono.extends hb.later, fun _ =>
    (hsolid.extends hb.given).extends hb.later⟩
  · exact nomatch hb.has_after.symm.trans hn
  · exact nomatch hafter.symm.trans hn
  · obtain ⟨x, name, hmem, hx, -⟩ := ht.down hb.unbound
    have hxs := Leads.solid_back (hb.root hx).leads (hsolid.extends hb.given)
    obtain ⟨tx, htx⟩ : ∃ tx, (h1.setType m (some t)).type x = some tx :=
      Option.ne_none_iff_exists'.1 fun hn => not_solid_unbound hn hxs
    have hset := hb.downBound x name tx hmem htx (Leads.solid (.mono htx) hxs)
    refine hb.settled_down hC ?_
    have hstep : Leads C.typedefs h2 (.tMono x) tx := .mono (hb.later _ _ htx)
    exact (((hb.root hx).leads.extends hb.later).settled_right hC).1 ((hstep.settled_right hC).2 hset)

/-- What is tracked before is tracked while `m` has the type; but that it is below something bound is settled only at
the end. -/
theorem tracked_mono (hC : Lawful C) (hb : Binding C h1 h2 m t) {x x2 r r2 : Nat} (hr : Root h1 x r) (hr2 : Root h1 x2 r2)
    (ht : MonoTracked C h1 r r2) (hne : r ≠ r2) : Tracked C h2 (.mono x x2) := by
  by_cases hrm : r = m
  · subst hrm
    have hr2m : r2 ≠ r := fun h => hne h.symm
    by_cases hbound : h1.type r2 = none
    · refine hb.kept _ ⟨r, r2, hb.root hr, hb.root hr2, .inr ⟨?_, fun _ => ?_, ?_, fun _ => hb.solidMono, ?_⟩⟩
      · exact fun hn => nomatch hb.has.symm.trans hn
      · obtain ⟨y, name, hmem, hy, -⟩ := ht.up hbound
        refine ⟨y, name, by simpa using hmem, hb.root hy, fun hn => ?_⟩
        exact nomatch hb.has.symm.trans hn
      · exact fun _ h2 => absurd (by rw [hb.type_of_ne hr2m, hbound]) h2
      · exact fun h2 => absurd (by rw [hb.type_of_ne hr2m, hbound]) h2
    · have hend : Root h2 r2 r2 := .here fun y => by
        obtain ⟨t2, htype⟩ := Option.ne_none_iff_exists'.1 hbound
        rw [hb.later _ _ (hb.given _ _ htype), ← htype]
        exact hr2.end y
      refine ⟨r, r2, hb.root_after hr, ?_, .inr (hb.monoTracked_left hC ht hbound)⟩
      exact (hb.root hr2).extends hb.later hend.end
  · have hrtype := hb.type_of_ne hrm
    refine hb.kept _ ⟨r, r2, hb.root hr, hb.root hr2, .inr ⟨fun hn => ?_, fun hn => ?_, fun hn hn2 => ?_, ?_, ?_⟩⟩
    · obtain ⟨y, name, hmem, hy, heq⟩ := ht.down (hrtype ▸ hn)
      refine ⟨y, name, by simpa using hmem, hb.root hy, fun hn2 => heq ?_⟩
      by_cases hr2m : r2 = m
      · rw [hr2m, hb.unbound]
      · rw [← hb.type_of_ne hr2m, hn2]
    · have hr2m : r2 ≠ m := by
        rintro rfl
        exact nomatch hb.has.symm.trans hn
      obtain ⟨y, name, hmem, hy, heq⟩ := ht.up (hb.type_of_ne hr2m ▸ hn)
      exact ⟨y, name, by simpa using hmem, hb.root hy, fun hn1 => heq (hrtype ▸ hn1)⟩
    · rw [hrtype] at hn
      by_cases hr2m : r2 = m
      · -- the up constraints of `m` have the type of `r`
        subst hr2m
        obtain ⟨y, name, hmem, hy, -⟩ := ht.up hb.unbound
        have hys := Leads.solid_back hy.leads (ht.solidLeft hn)
        obtain ⟨ty, hty⟩ : ∃ ty, h1.type y = some ty := Option.ne_none_iff_exists'.1 fun hn => not_solid_unbound hn hys
        have hset := hb.settled_up hC (.bound hmem hty (Leads.solid (.mono hty) hys))
        have hstep : Leads C.typedefs (h1.setType r2 (some t)) (.tMono y) ty := .mono (hb.given _ _ hty)
        exact ((hb.root hy).leads.settled_left hC).1 ((hstep.settled_left hC).2 hset)
      · rw [hb.type_of_ne hr2m] at hn2
        exact (ht.settled hn hn2).extends hb.given
    · exact fun hn => (ht.solidLeft (hrtype ▸ hn)).extends hb.given
    · intro hn2
      by_cases hr2m : r2 = m
      · exact hr2m ▸ hb.solidMono
      · exact (ht.solidRight (hb.type_of_ne hr2m ▸ hn2)).extends hb.given

theorem tracked (hC : Lawful C) (hb : Binding C h1 h2 m t) : ∀ {p : Stated}, Tracked C h1 p → Tracked C h2 p
  | .below _ _, ⟨r, hr, hstated, hset⟩ => by
    by_cases hrm : r = m
    · subst hrm
      refine ⟨r, hb.root_after hr, (fun hn => nomatch hb.has_after.symm.trans hn), fun _ => hb.settled_down hC (hb.down _ ?_)⟩
      exact (hstated hb.unbound).mono hb.given fun c hc _ => hc
    · refine hb.kept _ ⟨r, hb.root hr, ?_, ?_⟩
      · rw [hb.type_of_ne hrm]
        exact fun hn => (hstated hn).mono hb.given fun c hc _ => by simpa using hc
      · rw [hb.type_of_ne hrm]
        exact fun hn => (hset hn).extends hb.given
  | .above _ _, ⟨ht, r, hr, hup, hset⟩ => by
    refine hb.kept _ ⟨ht, r, hb.root hr, ?_⟩
    by_cases hrm : r = m
    · subst hrm
      obtain ⟨name, hmem⟩ := hup hb.unbound
      exact ⟨(fun hn => nomatch hb.has.symm.trans hn), fun _ => hb.settled_up hC (.type hmem ht)⟩
    · rw [hb.type_of_ne hrm]
      exact ⟨fun hn => (hup hn).imp fun name he => by simpa using he, fun hn => (hset hn).extends hb.given⟩
  | .mono x x2, ⟨r, r2, hr, hr2, hor⟩ => by
    by_cases hrr : r = r2
    · subst hrr
      exact hb.kept _ ⟨r, r, hb.root hr, hb.root hr2, .inl rfl⟩
    · exact hb.tracked_mono hC hr hr2 (hor.resolve_left hrr) hrr

end Binding

theorem doBind_grows (hm : h.type m = some t) : Grows h (doBind h m t) where
  type x := by
    by_cases hx : x = m
    · subst hx
      simp [doBind, hm]
    · simp [doBind, hx]
  down x hx c hc := by
    have hne : x ≠ m := by
      rintro rfl
      cases hm.symm.trans hx
    simpa [doBind, hne] using hc
  up x hx c hc := by
    have hne : x ≠ m := by
      rintro rfl
      cases hm.symm.trans hx
    simpa [doBind, hne] using hc

end EvilHaxe.Unify

/-! Runs of operations on monomorphs, and the conditions under which every constraint stated in one holds in the end. They
leave out: an up constraint that `add_down_constraint` overwrites; constraints on and bindings of monomorphs that are
bound, and constraints by a monomorph that is bound to an unbound one; a type that is an unbound monomorph inside `Null`,
a typedef or a lazy type; fields of one name but different types; monomorphs that get bound while the up constraints of the
one being bound are checked, if they add to these; and exceptions. -/

namespace EvilHaxe.Unify

variable {C : Context} {h h' : Heap} {m : Nat} {a b t : Ty}

/-! ## Constraints that are stated -/

/-- What is stated to be below what. -/
def Op.stated : Op → List (Ty × Ty)
  | .addUpConstraint m (t, _) => [(t, .tMono m)]
  | .addDownConstraint m (.mMono m2 _) => [(.tMono m, .tMono m2)]
  | .addDownConstraint m (.mType t _) => [(.tMono m, t)]
  | .addDownConstraint m (.mField cf) => [(.tMono m, .tAnon [cf])]
  | .addDownConstraint m .mEmptyStructure => [(.tMono m, .tAnon [])]
  | .constrainToType m _ t => [(.tMono m, t)]
  | _ => []

def Event.stated : Event → List (Ty × Ty)
  | .call _ op => op.stated
  | _ => []

/-- A tracked constraint says that `a` is below `b`. -/
def Pledged (C : Context) (h : Heap) (a b : Ty) : Prop :=
  ∃ p, Tracked C h p ∧ Leads C.typedefs h a p.left ∧ Leads C.typedefs h b p.right

theorem Pledged.unifies (hC : Lawful C) (hp : Pledged C h a b) (ha : Solid C.typedefs h a) (hb : Solid C.typedefs h b) :
    Unifies C h a b := by
  obtain ⟨p, ht, hl, hr⟩ := hp
  have hs := ht.settled hC (hl.solid ha) (hr.solid hb)
  exact ((hl.settled_left hC).2 ((hr.settled_right hC).2 hs)).unifies

/-! ## Conditions -/

/-- Nothing that happens loses a constraint. -/
def Event.Keeps (C : Context) : Event → Prop
  | .asked _ _ => True
  | .call h (.addUpConstraint m (t, _)) =>
    h.type m = none ∧ ∀ m2, t = .tMono m2 → h.type m2 = none ∨ Solid C.typedefs h t
  | .call h (.addDownConstraint m c) =>
    h.type m = none ∧ ∀ m2 name, c = .mMono m2 name →
      KeepsUp h m m2 ∧ (h.type m2 = none ∨ Solid C.typedefs h (.tMono m2))
  | .call h (.constrainToType m _ t) =>
    h.type m = none ∧ ∀ m2, Settles C.typedefs h t (.tMono m2) → KeepsUp h m m2
  | .call h (.bind m (.tMono m2)) => h.type m = none ∧ (h.type m2 = none → m ≠ m2 → CopiesUp h m m2)
  | .call h (.bind m t) => h.type m = none ∧ Solid C.typedefs h t ∧ hasOpenStructure h m = false
  | .call _ (.close _) => False
  | .call _ _ => True
  | .binds h h1 m t =>
    h1.type m = none ∧ (∀ c, Collects C.typedefs h1 m c → Collects C.typedefs h m c) ∧
      FieldsAgree C.typedefs (h1.setType m (some t)) m
  | .fails => False

/-! ## Operations -/

/-- From `h` to `h'` the tracked constraints stay tracked. -/
structure Passes (C : Context) (h h' : Heap) : Prop where
  later : Extends h h'
  kept : ∀ p, Tracked C h p → Tracked C h' p

theorem Passes.refl (h : Heap) : Passes C h h := ⟨.refl h, fun _ hp => hp⟩

theorem Passes.trans {h'' : Heap} (h1 : Passes C h h') (h2 : Passes C h' h'') : Passes C h h'' :=
  ⟨h1.later.trans h2.later, fun p hp => h2.kept p (h1.kept p hp)⟩

theorem Grows.passes (hg : Grows h h') : Passes C h h' := ⟨hg.later, fun _ hp => hp.grows hg⟩

theorem Joins.passes {k : Nat} (hj : Joins h h' m k) : Passes C h h' := ⟨hj.later, fun _ hp => hj.tracked hp⟩

theorem Pledged.passes (hp : Pledged C h a b) (hpass : Passes C h h') : Pledged C h' a b := by
  obtain ⟨p, ht, hl, hr⟩ := hp
  exact ⟨p, hpass.kept p ht, hl.extends hpass.later, hr.extends hpass.later⟩

/-- An operation that meets the conditions. -/
structure After (C : Context) (h : Heap) (out : Out) : Prop where
  passes : Passes C h out.heap
  stated : ∀ e ∈ out.events, ∀ p ∈ e.stated, Pledged C out.heap p.1 p.2

theorem After.of_call {op : Op} (hpass : Passes C h h') (hstated : ∀ p ∈ op.stated, Pledged C h' p.1 p.2) :
    After C h (Out.after [.call h op] (.done h')) where
  passes := hpass
  stated e he := by
    obtain rfl := List.mem_singleton.1 he
    exact hstated

/-- An event that states nothing, and what comes of it. -/
theorem After.cons {e : Event} {out : Out} (ha : After C h out) (he : ∀ p, p ∉ e.stated) : After C h (out.after [e]) where
  passes := ha.passes
  stated e' he' p hp := by
    rcases List.mem_cons.1 he' with rfl | he'
    · exact absurd hp (he p)
    · exact ha.stated e' he' p hp

/-- One operation after another. -/
theorem After.append {out out' : Out} {ok : Bool} (h1 : After C h out) (h2 : After C out.heap out') :
    After C h ⟨out'.heap, ok, out.events ++ out'.events⟩ where
  passes := h1.passes.trans h2.passes
  stated e he p hp := by
    rcases List.mem_append.1 he with he | he
    · exact (h1.stated e he p hp).passes h2.passes
    · exact h2.stated e he p hp

theorem After.done (h : Heap) : After C h (.done h) := ⟨.refl h, fun _ he => nomatch he⟩

/-- Operations done by `step` that meet the conditions keep the constraints. -/
def Safe (C : Context) (step : Heap → Op → Option Out) : Prop :=
  ∀ h op out, step h op = some out → (∀ e ∈ out.events, e.Keeps C) → After C h out

theorem runOps_after {step : Heap → Op → Option Out} (hstep : Safe C step) : ∀ {ops : List Op} {h : Heap} {out : Out},
    runOps step h ops = some out → (∀ e ∈ out.events, e.Keeps C) → After C h out
  | [], h, out, hrun, _ => by
    obtain rfl := Option.some.inj hrun
    exact .done h
  | op :: ops, h, out, hrun, hkeeps => by
    obtain ⟨r, hr, hrun⟩ := Option.bind_eq_some_iff.1 hrun
    obtain ⟨r', hr', hrun⟩ := Option.bind_eq_some_iff.1 hrun
    obtain rfl := Option.some.inj hrun
    have h1 := hstep h op r hr fun e he => hkeeps e (List.mem_append_left _ (.tail _ he))
    refine (h1.cons ?_).append (runOps_after hstep hr' fun e he => hkeeps e (List.mem_append_right _ he))
    exact fun _ hp => nomatch hp

theorem runChecks_after {n : Nat} (hC : Lawful C) (hstep : Safe C (exec C n)) :
    ∀ {l : List (Ty × Ty)} {h : Heap} {out : Out}, runChecks C (exec C n) h l = some out → (∀ e ∈ out.events, e.Keeps C) →
      After C h out ∧ out.ok = true ∧ ∀ p ∈ l, Settled C out.heap p.1 p.2
  | [], h, out, hrun, _ => by
    obtain rfl := Option.some.inj hrun
    exact ⟨.done h, rfl, fun _ hp => nomatch hp⟩
  | (a, b) :: l, h, out, hrun, hkeeps => by
    unfold runChecks at hrun
    obtain ⟨r, hr, hrun⟩ := Option.bind_eq_some_iff.1 hrun
    split at hrun
    · rename_i hok
      obtain ⟨r', hr', rfl⟩ := Option.map_eq_some_iff.1 hrun
      have h1 := runOps_after hstep hr fun e he => hkeeps e (List.mem_append_left _ he)
      obtain ⟨h2, hok', hset⟩ := runChecks_after hC hstep hr' fun e he => hkeeps e (List.mem_append_right _ he)
      refine ⟨h1.append h2, hok', fun p hp => ?_⟩
      rcases List.mem_cons.1 hp with rfl | hp
      · exact fun h' he => hC.persists h a b n r h' hok hr (h2.passes.later.trans he)
      · exact hset p hp
    · obtain rfl := Option.some.inj hrun
      exact (hkeeps .fails (List.mem_append_right _ (List.mem_singleton.2 rfl))).elim

theorem bindType_after {n : Nat} {out : Out} (hC : Lawful C) (hstep : Safe C (exec C n)) (ht : ∀ x, t ≠ .tMono x)
    (hsolid : Solid C.typedefs h t) (hrun : bindType C n (exec C n) h m t = some out) (hkeeps : ∀ e ∈ out.events, e.Keeps C) :
    After C h out := by
  unfold bindType at hrun
  obtain ⟨ups, hups, hrun⟩ := Option.bind_eq_some_iff.1 hrun
  obtain ⟨r1, hr1, hrun⟩ := Option.bind_eq_some_iff.1 hrun
  split at hrun
  · rename_i hok
    obtain rfl := Option.some.inj hrun
    exact (runChecks_after hC hstep hr1 hkeeps).1
  · obtain ⟨kind, hkind, hrun⟩ := Option.bind_eq_some_iff.1 hrun
    obtain ⟨r2, hr2, hrun⟩ := Option.bind_eq_some_iff.1 hrun
    have hevents : out.events = r1.events ++ .binds h r1.heap m t :: r2.events := by
      split at hrun <;> exact Option.some.inj hrun ▸ rfl
    rw [hevents] at hkeeps
    obtain ⟨h1, -, hset1⟩ := runChecks_after hC hstep hr1 fun e he => hkeeps e (List.mem_append_left _ he)
    obtain ⟨h2, hok2, hset2⟩ := runChecks_after hC hstep hr2 fun e he => hkeeps e (List.mem_append_right _ (.tail _ he))
    obtain ⟨hm, hcollects, hagree⟩ := hkeeps _ (List.mem_append_right _ (.head _))
    obtain ⟨hdown, hdownBound⟩ := classify_covers hkind hagree
    simp only [Heap.down_setType] at hdown hdownBound
    rw [if_pos hok2] at hrun
    obtain rfl := Option.some.inj hrun
    have htargets : ∀ t2, Covers C.typedefs (r1.heap.setType m (some t)) kind.targets t2 → Settled C r2.heap t t2 := fun t2 hc =>
      (hc.extends h2.passes.later).settled hC fun t3 ht3 => hset2 (t, t3) (List.mem_map.2 ⟨t3, ht3, rfl⟩)
    have hb : Binding C r1.heap r2.heap m t := {
      unbound := hm
      type := ht
      solid := hsolid.extends h1.passes.later
      up := fun c hc => hset1 (c.1, t) (List.mem_map.2 ⟨c, (hcollects c hc).mem hups, rfl⟩)
      later := h2.passes.later
      kept := h2.passes.kept
      down := fun t2 hstated => htargets t2 (hdown t2 hstated)
      downBound := fun x name t2 hx hty hs => htargets t2 (hdownBound x name t2 hx hty hs) }
    have hpass : Passes C r1.heap (doBind r2.heap m t) :=
      ⟨(hb.given.trans hb.later).trans (doBind_grows hb.has_after).later, fun p hp => (hb.tracked hC hp).grows (doBind_grows hb.has_after)⟩
    refine ⟨h1.passes.trans hpass, fun e he p hp => ?_⟩
    rcases List.mem_append.1 he with he | he
    · exact (h1.stated e he p hp).passes hpass
    · rcases List.mem_cons.1 he with rfl | he
      · exact nomatch hp
      · exact (h2.stated e he p hp).passes (doBind_grows hb.has_after).passes

/-! ## Adding a constraint -/

theorem tracked_of_down {m2 : Nat} {name : Option String} (hm : h.type m = none) (hdown : .mMono m2 name ∈ h.down m)
    (hup : (.tMono m, name) ∈ h.up m2) (hm2 : h.type m2 = none ∨ Solid C.typedefs h (.tMono m2)) : Tracked C h (.mono m m2) := by
  rcases hm2 with hm2 | hm2
  · refine ⟨m, m2, .unbound hm, .unbound hm2, .inr ⟨fun _ => ⟨m2, name, hdown, .unbound hm2, fun _ => rfl⟩,
      fun _ => ⟨m, name, hup, .unbound hm, fun _ => rfl⟩, fun h1 => absurd hm h1, fun h1 => absurd hm h1, fun h2 => absurd hm2 h2⟩⟩
  · obtain ⟨r2, t2, hr2, htype, hsolid⟩ := hm2.root
    have hbound : h.type r2 ≠ none := by simp [htype]
    refine ⟨m, r2, .unbound hm, hr2, .inr ⟨fun _ => ⟨m2, name, hdown, hr2, fun hn => absurd hn hbound⟩,
      fun hn => absurd hn hbound, fun h1 => absurd hm h1, fun h1 => absurd hm h1, fun _ => ?_⟩⟩
    exact Leads.solid_back (.mono htype) hsolid

theorem tracked_of_up {m2 : Nat} {name : Option String} (hm : h.type m = none) (hup : (.tMono m2, name) ∈ h.up m)
    (hdown : .mMono m name ∈ h.down m2) (hm2 : h.type m2 = none ∨ Solid C.typedefs h (.tMono m2)) : Tracked C h (.mono m2 m) := by
  rcases hm2 with hm2 | hm2
  · exact tracked_of_down hm2 hdown hup (.inl hm)
  · obtain ⟨r, t, hr, htype, hsolid⟩ := hm2.root
    have hbound : h.type r ≠ none := by simp [htype]
    refine ⟨r, m, hr, .unbound hm, .inr ⟨fun hn => absurd hn hbound, fun _ => ⟨m2, name, hup, hr, fun hn => absurd hn hbound⟩,
      fun _ h2 => absurd hm h2, fun _ => ?_, fun h2 => absurd hm h2⟩⟩
    exact Leads.solid_back (.mono htype) hsolid

theorem addUpConstraint_after {e : Ty × Option String} (hkeeps : Event.Keeps C (.call h (.addUpConstraint m e))) :
    After C h (Out.after [.call h (.addUpConstraint m e)] (.done (addUpConstraint h m e))) := by
  obtain ⟨t, name⟩ := e
  obtain ⟨hm, hmono⟩ := hkeeps
  have hg := addUpConstraint_grows h m (t, name)
  have hm' : (addUpConstraint h m (t, name)).type m = none := by rw [hg.type, hm]
  refine .of_call hg.passes fun p hp => ?_
  obtain rfl := List.mem_singleton.1 hp
  by_cases ht : ∃ m2, t = .tMono m2
  · obtain ⟨m2, rfl⟩ := ht
    refine ⟨.mono m2 m, tracked_of_up hm' (mem_addUpConstraint h m _) (mem_addUpConstraint_mono h m m2 name) ?_, .refl, .refl⟩
    exact (hmono m2 rfl).imp (fun hn => by rw [hg.type, hn]) fun hs => hs.extends hg.later
  · refine ⟨.above t m, ⟨fun x hx => ht ⟨x, hx⟩, m, .unbound hm', fun _ => ⟨name, mem_addUpConstraint h m _⟩,
      fun hn => absurd hm' hn⟩, .refl, .refl⟩

theorem pledged_of_stated (hm : h.type m = none) (hs : Says C.typedefs h (h.down m) t) : Pledged C h (.tMono m) t :=
  ⟨.below m t, ⟨m, .unbound hm, fun _ => hs, fun hn => absurd hm hn⟩, .refl, .refl⟩

theorem addDownConstraint_after {c : Constraint} (hkeeps : Event.Keeps C (.call h (.addDownConstraint m c))) :
    After C h (Out.after [.call h (.addDownConstraint m c)] (.done (addDownConstraint h m c))) := by
  obtain ⟨hm, hmono⟩ := hkeeps
  have hg := addDownConstraint_grows fun m2 name heq => (hmono m2 name heq).1
  have hm' : (addDownConstraint h m c).type m = none := by rw [hg.type, hm]
  have hmem := mem_addDownConstraint h m c
  refine .of_call hg.passes fun p hp => ?_
  cases c with
  | mMono m2 name =>
    obtain rfl := List.mem_singleton.1 hp
    refine ⟨.mono m m2, tracked_of_down hm' hmem (mem_addDownConstraint_mono h m m2 name) ?_, .refl, .refl⟩
    exact (hmono m2 name rfl).2.imp (fun hn => by rw [hg.type, hn]) fun hs => hs.extends hg.later
  | mType t name =>
    obtain rfl := List.mem_singleton.1 hp
    exact pledged_of_stated hm' (.inl ⟨name, hmem⟩)
  | mField cf =>
    obtain rfl := List.mem_singleton.1 hp
    refine pledged_of_stated hm' (.inr ⟨[cf], .refl, .inr ⟨by simp, fun f hf => ?_⟩⟩)
    exact List.mem_singleton.1 hf ▸ hmem
  | mOpenStructure => exact nomatch hp
  | mEmptyStructure =>
    obtain rfl := List.mem_singleton.1 hp
    exact pledged_of_stated hm' (.inr ⟨[], .refl, .inl ⟨rfl, hmem⟩⟩)

theorem constraintOfType_noMono {D : Typedefs} {n : Nat} {name : Option String} {l : List Constraint}
    (hl : constraintOfType D n h name t = some l) (hs : Solid D h t) : ∀ c ∈ l, ∀ x s, c ≠ .mMono x s := by
  unfold constraintOfType at hl
  split at hl
  · exact nomatch hl
  · rename_i m2 hf
    exact absurd rfl (hs.follow hf m2)
  · obtain rfl := Option.some.inj hl
    simp
  · obtain rfl := Option.some.inj hl
    intro c hc x s
    rcases mem_foldl_mField.1 hc with hc | ⟨cf, _, rfl⟩
    · exact nomatch hc
    · exact nofun
  · obtain rfl := Option.some.inj hl
    simp

theorem constrainToType_after {n : Nat} {name : Option String} {h' : Heap} (hadd : constrainToType C.typedefs n h m name t = some h')
    (hkeeps : Event.Keeps C (.call h (.constrainToType m name t))) :
    After C h (Out.after [.call h (.constrainToType m name t)] (.done h')) := by
  obtain ⟨hm, hmono⟩ := hkeeps
  obtain ⟨l, hl, rfl⟩ := Option.map_eq_some_iff.1 hadd
  rcases constraintOfType_cases hl with ⟨m2, rfl, hset⟩ | ⟨hsolid, hstated⟩
  · have hg : Grows h (addDownConstraint h m (.mMono m2 name)) := addDownConstraint_grows fun x s heq => by
      obtain ⟨rfl, rfl⟩ := Constraint.mMono.inj heq
      exact hmono _ hset
    refine .of_call hg.passes fun p hp => ?_
    obtain rfl := List.mem_singleton.1 hp
    refine ⟨.mono m m2, ?_, .refl, hset.1.extends hg.later⟩
    exact tracked_of_down ((hg.type m).trans hm) (mem_addDownConstraint h m _) (mem_addDownConstraint_mono h m m2 name)
      (.inl ((hg.type m2).trans hset.2))
  · obtain ⟨hg, hmem⟩ := foldl_addDownConstraint (m := m) (h := h) (constraintOfType_noMono hl hsolid)
    refine .of_call hg.passes fun p hp => ?_
    obtain rfl := List.mem_singleton.1 hp
    exact pledged_of_stated (by rw [hg.type, hm]) (hstated.mono hg.later fun c hc _ => hmem hm c hc)

/-! ## Runs -/

theorem Heap.create_grows (h : Heap) : Grows h h.create := ⟨fun _ => rfl, fun _ _ _ hc => hc, fun _ _ _ he => he⟩

theorem bindMono_after {n m2 : Nat} {out : Out} (hstep : Safe C (exec C n)) (hcall : Event.Keeps C (.call h (.bind m (.tMono m2))))
    (hrun : perform C n (exec C n) h (.bind m (.tMono m2)) = some out) (hkeeps : ∀ e ∈ out.events, e.Keeps C) : After C h out := by
  simp only [perform] at hrun
  split at hrun
  · obtain rfl := Option.some.inj hrun
    exact .done h
  · rename_i hne
    split at hrun
    · rename_i hm2
      obtain rfl := Option.some.inj hrun
      have hj := bindMono_joins hcall.1 hm2 (fun heq => hne heq.symm) (hcall.2 hm2 hne)
      exact ⟨hj.passes, fun _ he => nomatch he⟩
    · exact hstep h _ out hrun hkeeps

theorem linkUnbound_after {n e : Nat} {out : Out} (hstep : Safe C (exec C n))
    (hrun : linkUnbound C n (exec C n) h e b = some out) (hkeeps : ∀ e ∈ out.events, e.Keeps C) : After C h out := by
  have hfail : ∀ {h' : Heap}, some (Out.fail h') = some out → After C h out := by
    rintro h' heq
    obtain rfl := Option.some.inj heq
    exact (hkeeps .fails (List.mem_singleton.2 rfl)).elim
  unfold linkUnbound at hrun
  obtain ⟨loops, -, hrun⟩ := Option.bind_eq_some_iff.1 hrun
  split at hrun
  · obtain ⟨c, -, hrun⟩ := Option.bind_eq_some_iff.1 hrun
    split at hrun
    · split at hrun
      · obtain rfl := Option.some.inj hrun
        exact .done h
      · exact hfail hrun
    · exact hfail hrun
  · split at hrun
    · obtain rfl := Option.some.inj hrun
      exact .done h
    · exact hstep h _ out hrun hkeeps

theorem perform_after {n : Nat} {op : Op} {out : Out} (hC : Lawful C) (hstep : Safe C (exec C n)) (hcall : Event.Keeps C (.call h op))
    (hrun : perform C n (exec C n) h op = some out) (hkeeps : ∀ e ∈ out.events, e.Keeps C) :
    After C h (out.after [.call h op]) := by
  cases op with
  | create =>
    obtain rfl := Option.some.inj hrun
    exact .of_call h.create_grows.passes fun _ hp => nomatch hp
  | addUpConstraint m e =>
    obtain rfl := Option.some.inj hrun
    exact addUpConstraint_after hcall
  | addDownConstraint m c =>
    obtain rfl := Option.some.inj hrun
    exact addDownConstraint_after hcall
  | constrainToType m name t =>
    obtain ⟨h', hadd, rfl⟩ := Option.map_eq_some_iff.1 hrun
    exact constrainToType_after hadd hcall
  | spawn map params =>
    obtain ⟨ops, -, hrun⟩ := Option.bind_eq_some_iff.1 hrun
    exact (runOps_after hstep hrun hkeeps).cons fun _ => List.not_mem_nil
  | bind m t =>
    refine After.cons ?_ fun _ => List.not_mem_nil
    cases t with
    | tMono m2 => exact bindMono_after hstep hcall hrun hkeeps
    | tAnon fields =>
      obtain ⟨-, hsolid, hopen⟩ := hcall
      simp only [perform, hopen] at hrun
      exact bindType_after hC hstep (by simp) hsolid hrun hkeeps
    | _ => exact bindType_after hC hstep (by simp) hcall.2.1 hrun hkeeps
  | close m => exact hcall.elim
  | link e b =>
    refine After.cons ?_ fun _ => List.not_mem_nil
    simp only [perform] at hrun
    split at hrun
    · obtain rfl := Option.some.inj hrun
      exact .done h
    · exact linkUnbound_after hstep hrun hkeeps

theorem exec_safe (hC : Lawful C) : ∀ n, Safe C (exec C n)
  | 0 => fun _ _ _ hrun => nomatch hrun
  | n + 1 => fun h op out hrun hkeeps => by
    obtain ⟨r, hr, rfl⟩ := Option.map_eq_some_iff.1 hrun
    exact perform_after hC (exec_safe hC n) (hkeeps _ (.head _)) hr fun e he => hkeeps e (.tail _ he)

/-- In a run all of whose events meet the conditions every stated constraint holds, once both its sides are bound. -/
theorem constraints_kept (hC : Lawful C) {n : Nat} {ops : List Op} {out : Out} (hrun : run C n ops = some out)
    (hkeeps : ∀ e ∈ out.events, e.Keeps C) :
    ∀ e ∈ out.events, ∀ p ∈ e.stated, Solid C.typedefs out.heap p.1 → Solid C.typedefs out.heap p.2 →
      Unifies C out.heap p.1 p.2 := by
  intro e he p hp h1 h2
  exact ((runOps_after (exec_safe hC n) hrun hkeeps).stated e he p hp).unifies hC h1 h2

/-! ## A constraint that is kept, and one that is lost -/

/-- With `B:A`, `A` and `B` are bound to the same type. -/
def boundAlike : List Op :=
  [.create, .create, .constrainToType 1 none (.tMono 0), .bind 0 (.tAbstract "Int" []), .bind 1 (.tAbstract "Int" [])]

theorem fieldsAgree_of_types {D : Typedefs} (hdown : ∀ c ∈ h.down m, ∀ cf, ¬ Meets D h c (.mField cf)) : FieldsAgree D h m :=
  fun c1 h1 _ _ cf1 _ hm1 _ _ => absurd hm1 (hdown c1 h1 cf1)

theorem constraints_kept_boundAlike : ∃ out, run subContext 6 boundAlike = some out ∧ (∀ e ∈ out.events, e.Keeps subContext) ∧
    Unifies subContext out.heap (.tMono 1) (.tMono 0) := by
  let int : Ty := .tAbstract "Int" []
  let h1 := addDownConstraint Heap.empty.create.create 1 (.mMono 0 none)
  let h2 := doBind (h1.setType 0 (some int)) 0 int
  let h3 := doBind (h2.setType 1 (some int)) 1 int
  let both (h : Heap) (op : Op) (es : List Event) : List Event := .asked h op :: .call h op :: es
  let out : Out := ⟨h3, true, both .empty .create <| both Heap.empty.create .create <|
    both Heap.empty.create.create (.constrainToType 1 none (.tMono 0)) <| both h1 (.bind 0 int) <| .binds h1 h1 0 int ::
      both h2 (.bind 1 int) [.binds h2 h2 1 int]⟩
  have hrun : run subContext 6 boundAlike = some out := rfl
  have hint : ∀ {h : Heap}, Solid subContext.typedefs h int := ⟨int, ⟨.refl, rfl⟩, nofun⟩
  have hkeeps : ∀ e ∈ out.events, e.Keeps subContext := by
    simp only [out, both, List.forall_mem_cons]
    refine ⟨trivial, trivial, trivial, trivial, trivial, ⟨rfl, fun m2 _ _ _ he => ?_⟩, trivial, ⟨rfl, hint, rfl⟩,
      ⟨rfl, fun _ hc => hc, ?_⟩, trivial, ⟨rfl, hint, rfl⟩, ⟨rfl, fun _ hc => hc, ?_⟩, fun _ he => nomatch he⟩
    · exact nomatch he
    · exact fieldsAgree_of_types fun _ hc => nomatch hc
    · refine fieldsAgree_of_types fun c hc cf hmeets => ?_
      obtain rfl := List.mem_singleton.1 hc
      cases hmeets with
      | bound htype hl hmem hmeets =>
        obtain rfl : int = _ := Option.some.inj htype
        rename_i n l c
        cases n with
        | zero => exact nomatch hl
        | succ n =>
          obtain rfl : [.mType int none] = l := Option.some.inj hl
          obtain rfl := List.mem_singleton.1 hmem
          exact nomatch hmeets
      | unbound htype _ _ => exact nomatch htype
  exact ⟨out, hrun, hkeeps, constraints_kept lawful_subContext hrun hkeeps _ (.tail _ (.tail _ (.tail _ (.tail _ (.tail _ (.head _)))))) _
    List.mem_cons_self
    (Leads.solid_back (.mono rfl) hint) (Leads.solid_back (.mono rfl) hint)⟩

/-- With `B:A` and `C:A`, `B` is bound before `A`. -/
def lostBelow : List Op :=
  [.create, .create, .create, .constrainToType 1 none (.tMono 0), .constrainToType 2 none (.tMono 0),
    .bind 1 (.tInst "String" []), .bind 0 (.tAbstract "Int" []), .bind 2 (.tAbstract "Int" [])]

theorem lostBelow_loses : ∃ out, run plainContext 9 lostBelow = some out ∧ out.ok = true ∧
    out.heap.type 0 = some (.tAbstract "Int" []) ∧ out.heap.type 1 = some (.tInst "String" []) ∧
    out.heap.type 2 = some (.tAbstract "Int" []) ∧ (∃ e ∈ out.events, (.tMono 1, .tMono 0) ∈ e.stated) ∧
    ¬ Unifies plainContext out.heap (.tMono 1) (.tMono 0) := by
  refine ⟨_, rfl, rfl, rfl, rfl, rfl, ?_, ?_⟩
  · exact ⟨.call _ (.constrainToType 1 none (.tMono 0)),
      .tail _ (.tail _ (.tail _ (.tail _ (.tail _ (.tail _ (.tail _ (.head _))))))), List.mem_cons_self⟩
  · exact Bool.false_ne_true

end EvilHaxe.Unify
