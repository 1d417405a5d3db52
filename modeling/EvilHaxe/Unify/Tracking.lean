/-
A stated constraint is tracked: as long as a side of it is an unbound monomorph, the lists of that monomorph have it, and
once both sides are bound they unify from then on. Adding constraints and binding one monomorph to another keep it
tracked, unless an up constraint is lost.
-/
import EvilHaxe.Unify.Gathering

namespace EvilHaxe.Unify

variable {C : Context} {h h' : Heap} {m k : Nat} {a b t : Ty}

/-! ## Unification -/

def Unifies (C : Context) (h : Heap) (a b : Ty) : Prop := (C.unify h a b).2 = true

/-- What the constraints rely on of `unify`: it follows its arguments; a type unifies with itself, and with a structure
of fewer fields; and when a call has returned, with the bindings it made, so does one that is made later. -/
structure Lawful (C : Context) : Prop where
  left : ∀ h a a' b, followOnce C.typedefs h a = some a' → (Unifies C h a b ↔ Unifies C h a' b)
  right : ∀ h a b b', followOnce C.typedefs h b = some b' → (Unifies C h a b ↔ Unifies C h a b')
  refl : ∀ h a, Unifies C h a a
  width : ∀ h a fields fields', Unifies C h a (.tAnon fields) → (∀ cf ∈ fields', cf ∈ fields) → Unifies C h a (.tAnon fields')
  persists : ∀ h a b n out h', Unifies C h a b → runOps (exec C n) h (C.unify h a b).1 = some out → Extends out.heap h' →
    Unifies C h' a b

/-- From `h` on `a` unifies with `b`. -/
def Settled (C : Context) (h : Heap) (a b : Ty) : Prop := ∀ h', Extends h h' → Unifies C h' a b

theorem Settled.extends (hs : Settled C h a b) (he : Extends h h') : Settled C h' a b := fun h'' he' => hs h'' (he.trans he')

theorem Settled.unifies (hs : Settled C h a b) : Unifies C h a b := hs h (.refl h)

theorem Leads.settled_left (hC : Lawful C) {a' : Ty} (hl : Leads C.typedefs h a a') : Settled C h a b ↔ Settled C h a' b := by
  induction hl with
  | refl => exact .rfl
  | tail _ hstep ih =>
    exact ih.trans (forall_congr' fun h' => imp_congr_right fun he => hC.left h' _ _ b (followOnce_extends he hstep))

theorem Leads.settled_right (hC : Lawful C) {b' : Ty} (hl : Leads C.typedefs h b b') : Settled C h a b ↔ Settled C h a b' := by
  induction hl with
  | refl => exact .rfl
  | tail _ hstep ih =>
    exact ih.trans (forall_congr' fun h' => imp_congr_right fun he => hC.right h' a _ _ (followOnce_extends he hstep))

theorem Covers.settled (hC : Lawful C) {ts : List Ty} (hc : Covers C.typedefs h ts t) (hts : ∀ t2 ∈ ts, Settled C h a t2) :
    Settled C h a t := by
  rcases hc with hmem | ⟨fields, merged, hl, hmem, hsub⟩
  · exact hts t hmem
  · refine (hl.settled_right hC).2 fun h' he => ?_
    exact hC.width h' a merged fields (hts _ hmem h' he) hsub

/-! ## Stated constraints -/

/-- A type is to be below another: a monomorph below a type or another monomorph, or a type below a monomorph. -/
inductive Stated where
  | below (m : Nat) (t : Ty)
  | mono (m m2 : Nat)
  | above (t : Ty) (m : Nat)

namespace Stated

def left : Stated → Ty
  | .below m _ | .mono m _ => .tMono m
  | .above t _ => t

def right : Stated → Ty
  | .below _ t => t
  | .mono _ m | .above _ m => .tMono m

end Stated

/-- How `r` below `r2` is tracked, for two ends of chains. -/
structure MonoTracked (C : Context) (h : Heap) (r r2 : Nat) : Prop where
  down : h.type r = none → ∃ x name, .mMono x name ∈ h.down r ∧ Root h x r2 ∧ (h.type r2 = none → x = r2)
  up : h.type r2 = none → ∃ y name, (.tMono y, name) ∈ h.up r2 ∧ Root h y r ∧ (h.type r = none → y = r)
  settled : h.type r ≠ none → h.type r2 ≠ none → Settled C h (.tMono r) (.tMono r2)
  solidLeft : h.type r ≠ none → Solid C.typedefs h (.tMono r)
  solidRight : h.type r2 ≠ none → Solid C.typedefs h (.tMono r2)

def Tracked (C : Context) (h : Heap) : Stated → Prop
  | .below m t => ∃ r, Root h m r ∧ (h.type r = none → Says C.typedefs h (h.down r) t) ∧
      (h.type r ≠ none → Settled C h (.tMono r) t)
  | .mono m m2 => ∃ r r2, Root h m r ∧ Root h m2 r2 ∧ (r = r2 ∨ MonoTracked C h r r2)
  | .above t m => (∀ x, t ≠ .tMono x) ∧ ∃ r, Root h m r ∧ (h.type r = none → ∃ name, (t, name) ∈ h.up r) ∧
      (h.type r ≠ none → Settled C h t (.tMono r))

theorem Root.bound_of_solid {D : Typedefs} {r : Nat} (hr : Root h m r) (hs : Solid D h (.tMono m)) : h.type r ≠ none :=
  fun hn => not_solid_unbound hn (hr.leads.solid hs)

/-- When both sides are bound, they unify from then on. -/
theorem Tracked.settled (hC : Lawful C) : ∀ {p : Stated}, Tracked C h p → Solid C.typedefs h p.left →
    Solid C.typedefs h p.right → Settled C h p.left p.right
  | .below _ _, ⟨_, hr, _, hset⟩, hl, _ => (hr.leads.settled_left hC).2 (hset (hr.bound_of_solid hl))
  | .above _ _, ⟨_, _, hr, _, hset⟩, _, hrr => (hr.leads.settled_right hC).2 (hset (hr.bound_of_solid hrr))
  | .mono m m2, ⟨r, r2, hr, hr2, hor⟩, hl, hrr => by
    have hset : Settled C h (.tMono r) (.tMono r2) := by
      rcases hor with rfl | ht
      · exact fun h' _ => hC.refl h' _
      · exact ht.settled (hr.bound_of_solid hl) (hr2.bound_of_solid hrr)
    exact (hr.leads.settled_left hC).2 ((hr2.leads.settled_right hC).2 hset)

/-! ## Constraints are added -/

/-- No binding changes, and the lists of unbound monomorphs lose nothing. -/
structure Grows (h h' : Heap) : Prop where
  type : ∀ x, h'.type x = h.type x
  down : ∀ x, h.type x = none → ∀ c ∈ h.down x, c ∈ h'.down x
  up : ∀ x, h.type x = none → ∀ e ∈ h.up x, e ∈ h'.up x

theorem Grows.refl (h : Heap) : Grows h h := ⟨fun _ => rfl, fun _ _ _ hc => hc, fun _ _ _ he => he⟩

theorem Grows.trans {h'' : Heap} (h1 : Grows h h') (h2 : Grows h' h'') : Grows h h'' where
  type x := (h2.type x).trans (h1.type x)
  down x hx c hc := h2.down x (by rw [h1.type, hx]) c (h1.down x hx c hc)
  up x hx e he := h2.up x (by rw [h1.type, hx]) e (h1.up x hx e he)

theorem Grows.later (hg : Grows h h') : Extends h h' := .of_eq hg.type

theorem Tracked.grows (hg : Grows h h') : ∀ {p : Stated}, Tracked C h p → Tracked C h' p
  | .below _ _, ⟨r, hr, hstated, hset⟩ =>
    ⟨r, hr.congr hg.type, fun hn => (hstated (hg.type r ▸ hn)).mono hg.later fun c hc _ => hg.down r (hg.type r ▸ hn) c hc,
      fun hn => (hset (hg.type r ▸ hn)).extends hg.later⟩
  | .above _ _, ⟨ht, r, hr, hup, hset⟩ =>
    ⟨ht, r, hr.congr hg.type, fun hn => (hup (hg.type r ▸ hn)).imp fun _ he => hg.up r (hg.type r ▸ hn) _ he,
      fun hn => (hset (hg.type r ▸ hn)).extends hg.later⟩
  | .mono _ _, ⟨r, r2, hr, hr2, hor⟩ => by
    refine ⟨r, r2, hr.congr hg.type, hr2.congr hg.type, hor.imp id fun ht => ⟨?_, ?_, ?_, ?_, ?_⟩⟩
    · intro hn
      rw [hg.type] at hn
      obtain ⟨x, name, hmem, hx, heq⟩ := ht.down hn
      exact ⟨x, name, hg.down r hn _ hmem, hx.congr hg.type, fun h2 => heq (hg.type r2 ▸ h2)⟩
    · intro hn
      rw [hg.type] at hn
      obtain ⟨y, name, hmem, hy, heq⟩ := ht.up hn
      exact ⟨y, name, hg.up r2 hn _ hmem, hy.congr hg.type, fun h2 => heq (hg.type r ▸ h2)⟩
    · exact fun h1 h2 => (ht.settled (hg.type r ▸ h1) (hg.type r2 ▸ h2)).extends hg.later
    · exact fun h1 => (ht.solidLeft (hg.type r ▸ h1)).extends hg.later
    · exact fun h2 => (ht.solidRight (hg.type r2 ▸ h2)).extends hg.later

/-! ## One monomorph is bound to another -/

/-- `m` is bound to `k`, which gets the constraints of `m`; nothing is lost but up constraints from `m`. -/
structure Joins (h h' : Heap) (m k : Nat) : Prop where
  unbound : h.type m = none
  target : h.type k = none
  ne : k ≠ m
  type : ∀ x, h'.type x = if x = m then some (.tMono k) else h.type x
  down : ∀ x, x ≠ m → ∀ c ∈ h.down x, c ∈ h'.down x
  up : ∀ x, x ≠ m → h.type x = none → ∀ e ∈ h.up x, e.1 ≠ .tMono m → e ∈ h'.up x
  downCopied : ∀ c ∈ h.down m, c ∈ h'.down k
  upCopied : ∀ e ∈ h.up m, e.1 ≠ .tMono m → e ∈ h'.up k
  downBack : ∀ x name, .mMono x name ∈ h.down m → x ≠ m → ∃ name', (.tMono k, name') ∈ h'.up x
  upBack : ∀ y name, (.tMono y, name) ∈ h.up m → y ≠ m → ∃ name', .mMono k name' ∈ h'.down y

namespace Joins

theorem later (hj : Joins h h' m k) : Extends h h' := by
  intro x t hx
  have hne : x ≠ m := by
    rintro rfl
    exact nomatch hj.unbound.symm.trans hx
  rw [hj.type, if_neg hne, hx]

theorem type_of_ne (hj : Joins h h' m k) {x : Nat} (hx : x ≠ m) : h'.type x = h.type x := by rw [hj.type, if_neg hx]

theorem target_unbound (hj : Joins h h' m k) : h'.type k = none := by rw [hj.type_of_ne hj.ne, hj.target]

theorem root_of_ne (hj : Joins h h' m k) {x r : Nat} (hr : Root h x r) (hne : r ≠ m) : Root h' x r :=
  hr.extends hj.later fun y => by
    rw [hj.type_of_ne hne]
    exact hr.end y

theorem root_of_eq (hj : Joins h h' m k) {x : Nat} (hr : Root h x m) : Root h' x k :=
  hr.extends_step hj.later (by rw [hj.type, if_pos rfl]) (.unbound hj.target_unbound)

/-- The left end is the monomorph that is bound. -/
theorem monoTracked_left (hj : Joins h h' m k) {r2 : Nat} (ht : MonoTracked C h m r2) (hne : r2 ≠ m) :
    MonoTracked C h' k r2 := by
  obtain ⟨x, name, hmem, hx, heq⟩ := ht.down hj.unbound
  refine ⟨fun _ => ⟨x, name, hj.downCopied _ hmem, hj.root_of_ne hx hne, fun h2 => heq (hj.type_of_ne hne ▸ h2)⟩, ?_, ?_, ?_, ?_⟩
  · intro h2
    obtain rfl := heq (hj.type_of_ne hne ▸ h2)
    obtain ⟨name', hup⟩ := hj.downBack x name hmem hne
    exact ⟨k, name', hup, .unbound hj.target_unbound, fun _ => rfl⟩
  · exact fun h1 => absurd hj.target_unbound h1
  · exact fun h1 => absurd hj.target_unbound h1
  · exact fun h2 => (ht.solidRight (hj.type_of_ne hne ▸ h2)).extends hj.later

/-- The right end is the monomorph that is bound. -/
theorem monoTracked_right (hj : Joins h h' m k) {r : Nat} (ht : MonoTracked C h r m) (hne : r ≠ m) :
    MonoTracked C h' r k := by
  obtain ⟨y, name, hmem, hy, heq⟩ := ht.up hj.unbound
  have hym : y ≠ m := by
    rintro rfl
    exact hne (hy.unique (.unbound hj.unbound))
  refine ⟨?_, fun _ => ⟨y, name, hj.upCopied _ hmem (by simpa using hym), hj.root_of_ne hy hne,
    fun h1 => heq (hj.type_of_ne hne ▸ h1)⟩, ?_, ?_, ?_⟩
  · intro h1
    obtain rfl := heq (hj.type_of_ne hne ▸ h1)
    obtain ⟨name', hdown⟩ := hj.upBack y name hmem hne
    exact ⟨k, name', hdown, .unbound hj.target_unbound, fun _ => rfl⟩
  · exact fun _ h2 => absurd hj.target_unbound h2
  · exact fun h1 => (ht.solidLeft (hj.type_of_ne hne ▸ h1)).extends hj.later
  · exact fun h2 => absurd hj.target_unbound h2

theorem monoTracked_of_ne (hj : Joins h h' m k) {r r2 : Nat} (ht : MonoTracked C h r r2) (hne : r ≠ m) (hne2 : r2 ≠ m) :
    MonoTracked C h' r r2 where
  down h1 := by
    rw [hj.type_of_ne hne] at h1
    obtain ⟨x, name, hmem, hx, heq⟩ := ht.down h1
    exact ⟨x, name, hj.down r hne _ hmem, hj.root_of_ne hx hne2, fun h2 => heq (hj.type_of_ne hne2 ▸ h2)⟩
  up h2 := by
    rw [hj.type_of_ne hne2] at h2
    obtain ⟨y, name, hmem, hy, heq⟩ := ht.up h2
    -- the only up constraint that may be lost is that from `m`, which does not end at `r`
    have hym : y ≠ m := by
      rintro rfl
      exact hne (hy.unique (.unbound hj.unbound))
    exact ⟨y, name, hj.up r2 hne2 h2 _ hmem (by simpa using hym), hj.root_of_ne hy hne, fun h1 => heq (hj.type_of_ne hne ▸ h1)⟩
  settled h1 h2 := (ht.settled (hj.type_of_ne hne ▸ h1) (hj.type_of_ne hne2 ▸ h2)).extends hj.later
  solidLeft h1 := (ht.solidLeft (hj.type_of_ne hne ▸ h1)).extends hj.later
  solidRight h2 := (ht.solidRight (hj.type_of_ne hne2 ▸ h2)).extends hj.later

theorem tracked (hj : Joins h h' m k) : ∀ {p : Stated}, Tracked C h p → Tracked C h' p
  | .below _ _, ⟨r, hr, hstated, hset⟩ => by
    by_cases hne : r = m
    · subst hne
      refine ⟨k, hj.root_of_eq hr, fun _ => ?_, fun hn => absurd hj.target_unbound hn⟩
      exact (hstated hj.unbound).mono hj.later fun c hc _ => hj.downCopied c hc
    · refine ⟨r, hj.root_of_ne hr hne, ?_, ?_⟩
      · rw [hj.type_of_ne hne]
        exact fun hn => (hstated hn).mono hj.later fun c hc _ => hj.down r hne c hc
      · rw [hj.type_of_ne hne]
        exact fun hn => (hset hn).extends hj.later
  | .above t _, ⟨ht, r, hr, hup, hset⟩ => by
    by_cases hne : r = m
    · subst hne
      refine ⟨ht, k, hj.root_of_eq hr, fun _ => ?_, fun hn => absurd hj.target_unbound hn⟩
      exact (hup hj.unbound).imp fun name he => hj.upCopied _ he (ht _)
    · refine ⟨ht, r, hj.root_of_ne hr hne, ?_, ?_⟩
      · rw [hj.type_of_ne hne]
        exact fun hn => (hup hn).imp fun name he => hj.up r hne hn _ he (ht _)
      · rw [hj.type_of_ne hne]
        exact fun hn => (hset hn).extends hj.later
  | .mono _ _, ⟨r, r2, hr, hr2, hor⟩ => by
    by_cases hrr : r = r2
    · subst hrr
      by_cases hne : r = m
      · subst hne
        exact ⟨k, k, hj.root_of_eq hr, hj.root_of_eq hr2, .inl rfl⟩
      · exact ⟨r, r, hj.root_of_ne hr hne, hj.root_of_ne hr2 hne, .inl rfl⟩
    · have ht := hor.resolve_left hrr
      by_cases hne : r = m
      · subst hne
        have hne2 : r2 ≠ r := fun h => hrr h.symm
        exact ⟨k, r2, hj.root_of_eq hr, hj.root_of_ne hr2 hne2, .inr (hj.monoTracked_left ht hne2)⟩
      · by_cases hne2 : r2 = m
        · subst hne2
          exact ⟨r, k, hj.root_of_ne hr hne, hj.root_of_eq hr2, .inr (hj.monoTracked_right ht hne)⟩
        · exact ⟨r, r2, hj.root_of_ne hr hne, hj.root_of_ne hr2 hne2, .inr (hj.monoTracked_of_ne ht hne hne2)⟩

end Joins

end EvilHaxe.Unify
