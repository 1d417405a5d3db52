/-
Reuse of modules is sound: what a call of `check_module` finds clean depends, through the dependencies that are followed,
on clean modules only, when no module is retyped above a dirty one that was assumed clean on the way.

The search keeps that every module put on the list is supported: retyped, or without own findings and with all followed
dependencies on the list, good, or still in progress. A module in progress that turns out dirty breaks this for the
modules that assumed it clean, and then nothing clean may be made of them above it.
-/
import EvilHaxe.Server.CheckModule
import Mathlib.Tactic

namespace EvilHaxe.Server

variable {M : Type}

/-! ## What the modules are -/

section Meaning

variable (c : Compilation M) (init : M → CacheState M)

/-- What is found out about a module apart from its dependencies, or was before the step. -/
def ownReason (m : M) : Option (SkipReason M) :=
  match init m with
  | .msBad reason => some reason
  | .msGood | .msUnknown => c.ownChecks m

/-- The dependencies of the module are checked. -/
def FollowsDeps (m : M) : Prop := ownReason c init m = none ∧ c.hasPolicy m .noCheckDependencies = false

def Follows (m d : M) : Prop := FollowsDeps c init m ∧ d ∈ c.deps m

abbrev Reaches : M → M → Prop := Relation.ReflTransGen (Follows c init)

/-- Retyping the module succeeds. -/
def Retypes (m : M) : Prop := c.hasPolicy m .retype = true ∧ c.attemptRetyping m = none

def SkipReason.isDependencyDirty : SkipReason M → Bool
  | .dependencyDirty _ _ => true
  | _ => false

/-- A module cannot be reused. -/
inductive Dirty : M → Prop
  | own {m : M} {reason : SkipReason M} (h : ownReason c init m = some reason)
    (hr : reason.isDependencyDirty = true → ¬ Retypes c m) : Dirty m
  | dependency {m d : M} (h : Follows c init m d) (hd : Dirty d) (hr : ¬ Retypes c m) : Dirty m

/-- Retyping the module is attempted, and succeeds. -/
def Retyped (m : M) : Prop :=
  Retypes c m ∧
    ((∃ reason, ownReason c init m = some reason ∧ reason.isDependencyDirty = true) ∨
      ∃ d, Follows c init m d ∧ Dirty c init d)

/-- The own checks of a module pass, or its retyping succeeds. -/
def Clean (m : M) : Prop := ownReason c init m = none ∨ Retyped c init m

/-- A dependency that is followed, and not past a module that is successfully retyped. -/
def FollowedPast (m d : M) : Prop := Follows c init m d ∧ ¬ Retyped c init m

/-- A module that is no reason for a skip is clean, with every module behind it. -/
theorem clean_of_not_dirty {m x : M} (h : ¬ Dirty c init m) (hx : Relation.ReflTransGen (FollowedPast c init) m x) :
    Clean c init x := by
  have hnx : ¬ Dirty c init x := by
    induction hx with
    | refl => exact h
    | @tail y z _ hf ih =>
      intro hd
      by_cases hr : Retypes c y
      · exact hf.2 ⟨hr, .inr ⟨_, hf.1, hd⟩⟩
      · exact ih (.dependency hf.1 hd hr)
  unfold Clean
  cases hown : ownReason c init x with
  | none => exact .inl rfl
  | some reason =>
    right
    by_contra hnr
    exact hnx (.own hown fun hi hr => hnr ⟨hr, .inl ⟨reason, hown, hi⟩⟩)

/-- The module depends on itself through a dependency that is checked before a dirty one. -/
def AssumedEarly (y : M) : Prop :=
  ∃ l₁ d l₂ e l₃, c.deps y = l₁ ++ d :: (l₂ ++ e :: l₃) ∧ FollowsDeps c init y ∧ Reaches c init d y ∧ Dirty c init e

/-- No module that is retyped has another one behind it that is dirty and was assumed clean before. -/
def Safe (m : M) : Prop :=
  ∀ r, Reaches c init m r → Retypes c r → ∀ y, Reaches c init r y → y ≠ r → Dirty c init y → ¬ AssumedEarly c init y

theorem Safe.of_reaches {m d : M} (h : Safe c init m) (hd : Reaches c init m d) : Safe c init d :=
  fun r hr => h r (hd.trans hr)

end Meaning

/-! ## The invariant of the search -/

section Invariant

variable (c : Compilation M) (init : M → CacheState M)

def Marked (s : State M) (x : M) : Prop := s.checked x = c.startMark

/-- The module is taken for clean. -/
def Settled (s : State M) (x : M) : Prop :=
  Marked c s x ∧ (s.cacheState x = .msGood ∨ x ∈ s.unknownStateModules)

/-- The module is clean when those in progress are. -/
def Supported (s : State M) (stack : List M) (x : M) : Prop :=
  Retyped c init x ∨
    (ownReason c init x = none ∧ ∀ d, Follows c init x d → Settled c s d ∨ d ∈ stack)

def AllSupported (s : State M) (stack : List M) : Prop := ∀ x, Settled c s x → Supported c init s stack x

/-- What holds between the steps of a search, `stack` being the modules in progress. -/
structure Base (s : State M) (stack : List M) : Prop where
  fresh : ∀ x, ¬ Marked c s x → s.cacheState x = init x
  inProgress : ∀ x ∈ stack, Marked c s x ∧ s.cacheState x = .msUnknown ∧ x ∉ s.unknownStateModules
  unknown : ∀ x, Marked c s x → s.cacheState x = .msUnknown → x ∈ stack ∨ x ∈ s.unknownStateModules
  bad : ∀ x reason, Marked c s x → s.cacheState x = .msBad reason → Dirty c init x
  listed : ∀ x ∈ s.unknownStateModules, Marked c s x ∧
    ((s.cacheState x = .msUnknown ∧ init x = .msGood) ∨ (s.cacheState x = .msGood ∧ Retyped c init x))

/-- Marked modules keep their marks, and what is new among the clean ones is on the list. -/
structure Extends (s s' : State M) : Prop where
  marked : ∀ x, Marked c s x → Marked c s' x ∧ s'.cacheState x = s.cacheState x
  list : ∀ x ∈ s.unknownStateModules, x ∈ s'.unknownStateModules
  settled : ∀ x, Settled c s' x → Settled c s x ∨ x ∈ s'.unknownStateModules

variable {c init}

theorem Extends.refl (s : State M) : Extends c s s :=
  ⟨fun _ h => ⟨h, rfl⟩, fun _ h => h, fun _ h => .inl h⟩

theorem Extends.trans {s s' s'' : State M} (h : Extends c s s') (h' : Extends c s' s'') : Extends c s s'' where
  marked x hx := ⟨(h'.marked x (h.marked x hx).1).1, (h'.marked x (h.marked x hx).1).2.trans (h.marked x hx).2⟩
  list x hx := h'.list x (h.list x hx)
  settled x hx := by
    rcases h'.settled x hx with hx | hx
    · exact (h.settled x hx).imp_right (h'.list x)
    · exact .inr hx

theorem Settled.extends {s s' : State M} {x : M} (h : Settled c s x) (he : Extends c s s') : Settled c s' x := by
  obtain ⟨hm, hs⟩ := he.marked x h.1
  refine ⟨hm, ?_⟩
  rcases h.2 with h | h
  · exact .inl (hs.trans h)
  · exact .inr (he.list x h)

/-- With nothing in progress, what is taken for clean is. -/
theorem not_dirty_of_supported {s : State M} (h : AllSupported c init s []) {x : M} (hx : Settled c s x) :
    ¬ Dirty c init x := by
  intro hd
  induction hd with
  | @own m reason hown hr =>
    rcases h m hx with ⟨hret, ⟨r, hr', hdep⟩ | ⟨d, hf, _⟩⟩ | ⟨hnone, _⟩
    · rw [hown] at hr'
      cases hr'
      exact hr hdep hret
    · rw [hf.1.1] at hown
      cases hown
    · rw [hown] at hnone
      cases hnone
  | @dependency m d hf hd hr ih =>
    rcases h m hx with hret | ⟨_, hdeps⟩
    · exact hr hret.1
    · rcases hdeps d hf with hs | hs
      · exact ih hs
      · cases hs

end Invariant

/-! ## The search keeps the invariant -/

section Search

variable {c : Compilation M} {init : M → CacheState M}

variable (c init) in
/-- A dirty module below `m` that was assumed clean is found dirty. -/
def BrokenBelow (s : State M) (m : M) : Prop :=
  ∃ y, Reaches c init m y ∧ Dirty c init y ∧ AssumedEarly c init y ∧ Marked c s y ∧ ∃ reason, s.cacheState y = .msBad reason

variable (c init) in
/-- What a check of `m` does, `stack` being the modules in progress. -/
structure Checked (s : State M) (m : M) (stack : List M) (dirty : Option (SkipReason M)) (s' : State M) : Prop where
  ext : Extends c s s'
  base : Base c init s' stack
  listed : ∀ x ∈ s'.unknownStateModules, x ∈ s.unknownStateModules ∨ (¬ Marked c s x ∧ Reaches c init m x)
  marked : Marked c s' m
  clean : dirty = none → (Settled c s' m ∨ m ∈ stack) ∧ AllSupported c init s' stack
  dirty : ∀ reason, dirty = some reason → s'.cacheState m = .msBad reason ∧
    ((AllSupported c init s' stack ∧ ∀ x ∈ s'.unknownStateModules, x ∈ s.unknownStateModules ∨ ¬ Reaches c init x m) ∨
      BrokenBelow c init s' m)

variable (c init) in
/-- What the checks of the dependencies `ds` do. -/
structure CheckedDeps (s : State M) (ds stack : List M) (dirty : Option (SkipReason M)) (s' : State M) : Prop where
  ext : Extends c s s'
  base : Base c init s' stack
  listed : ∀ x ∈ s'.unknownStateModules, x ∈ s.unknownStateModules ∨ (¬ Marked c s x ∧ ∃ d ∈ ds, Reaches c init d x)
  clean : dirty = none → (∀ d ∈ ds, Settled c s' d ∨ d ∈ stack) ∧ AllSupported c init s' stack
  dirty : ∀ reason, dirty = some reason → ∃ l₁ d l₂ r, ds = l₁ ++ d :: l₂ ∧ reason = .dependencyDirty d r ∧
    Marked c s' d ∧ s'.cacheState d = .msBad r ∧
    ((AllSupported c init s' stack ∧ ∀ x ∈ s'.unknownStateModules,
        x ∈ s.unknownStateModules ∨ (∃ d' ∈ l₁, Reaches c init d' x) ∨ ¬ Reaches c init x d) ∨
      BrokenBelow c init s' d)

/-- A module that is marked already. -/
theorem checked_marked {s : State M} {m : M} {stack : List M} (hb : Base c init s stack)
    (hs : AllSupported c init s stack) (hm : Marked c s m) {dirty : Option (SkipReason M)}
    (hd : match s.cacheState m with
      | .msGood | .msUnknown => dirty = none
      | .msBad reason => dirty = some reason) : Checked c init s m stack dirty s where
  ext := .refl s
  base := hb
  listed _ h := .inl h
  marked := hm
  clean h := by
    refine ⟨?_, hs⟩
    subst h
    cases hc : s.cacheState m with
    | msGood => exact .inl ⟨hm, .inl hc⟩
    | msUnknown => exact (hb.unknown m hm hc).elim .inr fun h => .inl ⟨hm, .inr h⟩
    | msBad reason =>
      rw [hc] at hd
      cases hd
  dirty reason h := by
    subst h
    cases hc : s.cacheState m with
    | msGood | msUnknown =>
      rw [hc] at hd
      cases hd
    | msBad r =>
      rw [hc] at hd
      cases hd
      exact ⟨rfl, .inl ⟨hs, fun _ h => .inl h⟩⟩

/-- The checks of the dependencies, given what each of them does. -/
theorem checkDependencies_spec (check : State M → M → Compilation.Answer M) {stack : List M} (bound : State M → Prop)
    (hbound : ∀ s s', Extends c s s' → bound s → bound s')
    (hcheck : ∀ s d, Base c init s stack → AllSupported c init s stack → Safe c init d → bound s →
      ∃ dirty s', check s d = .ok (dirty, s') ∧ Checked c init s d stack dirty s') :
    ∀ (ds : List M) (s : State M), Base c init s stack → AllSupported c init s stack → (∀ d ∈ ds, Safe c init d) →
      bound s → ∃ dirty s', Compilation.checkDependencies check s ds = .ok (dirty, s') ∧
        CheckedDeps c init s ds stack dirty s'
  | [], s, hb, hs, _, _ =>
    ⟨none, s, rfl, .refl s, hb, fun _ h => .inl h, fun _ => ⟨fun _ h => (nomatch h), hs⟩, fun _ h => (nomatch h)⟩
  | d :: rest, s, hb, hs, hsafe, hbd => by
    obtain ⟨hsd, hsrest⟩ := List.forall_mem_cons.1 hsafe
    obtain ⟨dirty, s1, hrun, h1⟩ := hcheck s d hb hs hsd hbd
    cases dirty with
    | some reason =>
      refine ⟨some (.dependencyDirty d reason), s1, by simp only [Compilation.checkDependencies, hrun], h1.ext, h1.base,
        fun x hx => (h1.listed x hx).imp_right fun ⟨hn, hr⟩ => ⟨hn, d, List.mem_cons_self .., hr⟩, fun h => (nomatch h), ?_⟩
      rintro _ ⟨⟩
      obtain ⟨hbad, hor⟩ := h1.dirty reason rfl
      refine ⟨[], d, rest, reason, rfl, rfl, h1.marked, hbad, ?_⟩
      exact hor.imp_left fun ⟨hall, hl⟩ => ⟨hall, fun x hx => (hl x hx).imp_right .inr⟩
    | none =>
      obtain ⟨hset, hall⟩ := h1.clean rfl
      obtain ⟨dirty, s2, hrun2, h2⟩ :=
        checkDependencies_spec check bound hbound hcheck rest s1 h1.base hall hsrest (hbound s s1 h1.ext hbd)
      refine ⟨dirty, s2, by simp only [Compilation.checkDependencies, hrun, hrun2], h1.ext.trans h2.ext, h2.base, ?_, ?_, ?_⟩
      · intro x hx
        rcases h2.listed x hx with hx1 | ⟨hn, d', hd', hr⟩
        · exact (h1.listed x hx1).imp_right fun ⟨hn, hr⟩ => ⟨hn, d, List.mem_cons_self .., hr⟩
        · exact .inr ⟨fun hm => hn (h1.ext.marked x hm).1, d', List.mem_cons_of_mem _ hd', hr⟩
      · intro h
        obtain ⟨hds, hall2⟩ := h2.clean h
        exact ⟨List.forall_mem_cons.2 ⟨hset.imp_left (·.extends h2.ext), hds⟩, hall2⟩
      · intro reason h
        obtain ⟨l₁, d', l₂, r, hsplit, hr, hm, hbad, hor⟩ := h2.dirty reason h
        refine ⟨d :: l₁, d', l₂, r, by rw [hsplit, List.cons_append], hr, hm, hbad, ?_⟩
        refine hor.imp_left fun ⟨hall2, hl⟩ => ⟨hall2, fun x hx => ?_⟩
        rcases hl x hx with hx1 | ⟨d'', hd'', hr⟩ | hnr
        · exact (h1.listed x hx1).imp_right fun ⟨_, hr⟩ => .inl ⟨d, List.mem_cons_self .., hr⟩
        · exact .inr (.inl ⟨d'', List.mem_cons_of_mem _ hd'', hr⟩)
        · exact .inr (.inr hnr)

/-- The modules that are not marked. They bound the depth of the search. -/
def unmarked [Fintype M] (c : Compilation M) (s : State M) : Finset M := {x | s.checked x ≠ c.startMark}

theorem unmarked_extends [Fintype M] {s s' : State M} (h : Extends c s s') : (unmarked c s').card ≤ (unmarked c s).card := by
  apply Finset.card_le_card
  intro x hx
  simp only [unmarked, Finset.mem_filter_univ] at *
  exact fun hm => hx (h.marked x hm).1

/-! ## One module -/

variable (c init) in
/-- The module `m` is in progress, its dependencies were checked as far as they are going to be. -/
structure Opened (s : State M) (m : M) (stack : List M) (t : State M) : Prop where
  unmarked : ¬ Marked c s m
  before : Base c init s stack
  supported : AllSupported c init s stack
  ext : Extends c s t
  base : Base c init t (m :: stack)
  listed : ∀ x ∈ t.unknownStateModules, x ∈ s.unknownStateModules ∨ (¬ Marked c s x ∧ Reaches c init m x)

variable {s t : State M} {m : M} {stack : List M}

namespace Opened

theorem marked (ho : Opened c init s m stack t) : Marked c t m := (ho.base.inProgress m (List.mem_cons_self ..)).1

theorem not_mem_stack (ho : Opened c init s m stack t) {x : M} (hx : x ∈ stack) : x ≠ m := by
  rintro rfl
  exact ho.unmarked (ho.before.inProgress x hx).1

theorem not_settled (ho : Opened c init s m stack t) : ¬ Settled c t m := by
  obtain ⟨_, hu, hn⟩ := ho.base.inProgress m (List.mem_cons_self ..)
  rintro ⟨_, h | h⟩
  · rw [hu] at h
    cases h
  · exact hn h

theorem ne_of_settled (ho : Opened c init s m stack t) {x : M} (h : Settled c t x) : x ≠ m := by
  rintro rfl
  exact ho.not_settled h

/-- Nothing that was clean before the module was marked depends on it. -/
theorem not_follows (ho : Opened c init s m stack t) {x : M} (hx : Settled c s x) (hr : ¬ Retyped c init x) :
    ¬ Follows c init x m := by
  intro hf
  rcases ho.supported x hx with h | ⟨_, hd⟩
  · exact hr h
  · rcases hd m hf with h | h
    · exact ho.unmarked h.1
    · exact ho.not_mem_stack h rfl

end Opened

variable [DecidableEq M]

theorem Opened.ext_set (ho : Opened c init s m stack t) (state : CacheState M) :
    ∀ x, Marked c s x → Marked c (t.setCacheState m state) x ∧ (t.setCacheState m state).cacheState x = s.cacheState x := by
  intro x hx
  have hne : x ≠ m := by
    rintro rfl
    exact ho.unmarked hx
  exact ⟨(ho.ext.marked x hx).1, (Function.update_of_ne hne _ _).trans (ho.ext.marked x hx).2⟩


theorem cacheState_set_ne {x : M} (hne : x ≠ m) (state : CacheState M) :
    (t.setCacheState m state).cacheState x = t.cacheState x := Function.update_of_ne hne _ _

@[simp] theorem cacheState_set_self (state : CacheState M) : (t.setCacheState m state).cacheState m = state :=
  Function.update_self ..

/-- The end for a module that is put on the list. -/
theorem checked_settled (ho : Opened c init s m stack t) (hall : AllSupported c init t (m :: stack))
    {state : CacheState M} (hstate : (state = .msUnknown ∧ init m = .msGood) ∨ (state = .msGood ∧ Retyped c init m))
    (hm : Supported c init t (m :: stack) m) :
    Checked c init s m stack none ((t.setCacheState m state).addUnknown m) := by
  have hback : ∀ x, Settled c ((t.setCacheState m state).addUnknown m) x → x = m ∨ Settled c t x := by
    rintro x ⟨hx, h⟩
    by_cases hne : x = m
    · exact .inl hne
    · refine .inr ⟨hx, ?_⟩
      rcases h with h | h
      · exact .inl ((cacheState_set_ne hne state).symm.trans h)
      · exact .inr ((List.mem_cons.1 h).resolve_left hne)
  have hself : Settled c ((t.setCacheState m state).addUnknown m) m := ⟨ho.marked, .inr (List.mem_cons_self ..)⟩
  have hfwd : ∀ x, Settled c t x → Settled c ((t.setCacheState m state).addUnknown m) x := by
    intro x h
    refine ⟨h.1, ?_⟩
    rcases h.2 with h' | h'
    · exact .inl ((cacheState_set_ne (ho.ne_of_settled h) state).trans h')
    · exact .inr (List.mem_cons_of_mem _ h')
  have hsupp : ∀ x, Supported c init t (m :: stack) x →
      Supported c init ((t.setCacheState m state).addUnknown m) stack x := by
    intro x h
    refine h.imp_right fun ⟨hown, hd⟩ => ⟨hown, fun d hf => ?_⟩
    rcases hd d hf with hd | hd
    · exact .inl (hfwd d hd)
    · rcases List.mem_cons.1 hd with rfl | hd
      · exact .inl hself
      · exact .inr hd
  refine ⟨⟨ho.ext_set state, fun x hx => List.mem_cons_of_mem _ (ho.ext.list x hx), ?_⟩, ?_, ?_, ho.marked, ?_, ?_⟩
  · intro x hx
    rcases hback x hx with rfl | hx
    · exact .inr (List.mem_cons_self ..)
    · exact (ho.ext.settled x hx).imp_right (List.mem_cons_of_mem _)
  · constructor
    · intro x hx
      have hne : x ≠ m := by
        rintro rfl
        exact hx ho.marked
      exact (cacheState_set_ne hne state).trans (ho.base.fresh x hx)
    · intro x hx
      have hne := ho.not_mem_stack hx
      obtain ⟨h1, h2, h3⟩ := ho.base.inProgress x (List.mem_cons_of_mem _ hx)
      exact ⟨h1, (cacheState_set_ne hne state).trans h2, fun h => (List.mem_cons.1 h).elim hne h3⟩
    · intro x hx hu
      by_cases hne : x = m
      · exact .inr (List.mem_cons.2 (.inl hne))
      · rcases ho.base.unknown x hx ((cacheState_set_ne hne state).symm.trans hu) with h | h
        · exact .inl ((List.mem_cons.1 h).resolve_left hne)
        · exact .inr (List.mem_cons_of_mem _ h)
    · intro x reason hx hbad
      by_cases hne : x = m
      · subst hne
        have hb := (cacheState_set_self state).symm.trans hbad
        rcases hstate with ⟨h, _⟩ | ⟨h, _⟩ <;>
        · rw [h] at hb
          cases hb
      · exact ho.base.bad x reason hx ((cacheState_set_ne hne state).symm.trans hbad)
    · intro x hx
      by_cases hne : x = m
      · subst hne
        exact ⟨ho.marked, hstate.imp (.imp_left (cacheState_set_self state).trans) (.imp_left (cacheState_set_self state).trans)⟩
      · obtain ⟨h1, h2⟩ := ho.base.listed x ((List.mem_cons.1 hx).resolve_left hne)
        exact ⟨h1, h2.imp (.imp_left (cacheState_set_ne hne state).trans) (.imp_left (cacheState_set_ne hne state).trans)⟩
  · intro x hx
    rcases List.mem_cons.1 hx with rfl | hx
    · exact .inr ⟨ho.unmarked, .refl⟩
    · exact ho.listed x hx
  · intro _
    refine ⟨.inl hself, fun x hx => ?_⟩
    rcases hback x hx with rfl | hx
    · exact hsupp x hm
    · exact hsupp x (hall x hx)
  · exact fun _ h => nomatch h

/-- The end for a module that turns out dirty. -/
theorem checked_bad (ho : Opened c init s m stack t) (reason : SkipReason M) (hd : Dirty c init m)
    (hor : (AllSupported c init t (m :: stack) ∧
        ∀ x ∈ t.unknownStateModules, x ∈ s.unknownStateModules ∨ ¬ Reaches c init x m) ∨
      AssumedEarly c init m ∨ BrokenBelow c init t m) :
    Checked c init s m stack (some reason) (t.setCacheState m (.msBad reason)) := by
  have hback : ∀ x, Settled c (t.setCacheState m (.msBad reason)) x → x ≠ m ∧ Settled c t x := by
    rintro x ⟨hx, h⟩
    have hne : x ≠ m := by
      rintro rfl
      rcases h with h | h
      · rw [cacheState_set_self] at h
        cases h
      · exact (ho.base.inProgress x (List.mem_cons_self ..)).2.2 h
    exact ⟨hne, hx, h.imp_left (cacheState_set_ne hne _).symm.trans⟩
  have hfwd : ∀ x, Settled c t x → Settled c (t.setCacheState m (.msBad reason)) x :=
    fun x h => ⟨h.1, h.2.imp_left (cacheState_set_ne (ho.ne_of_settled h) _).trans⟩
  refine ⟨⟨ho.ext_set _, ho.ext.list, fun x hx => ho.ext.settled x (hback x hx).2⟩, ?_, ho.listed, ho.marked,
    fun h => (nomatch h), ?_⟩
  · constructor
    · intro x hx
      have hne : x ≠ m := by
        rintro rfl
        exact hx ho.marked
      exact (cacheState_set_ne hne _).trans (ho.base.fresh x hx)
    · intro x hx
      obtain ⟨h1, h2, h3⟩ := ho.base.inProgress x (List.mem_cons_of_mem _ hx)
      exact ⟨h1, (cacheState_set_ne (ho.not_mem_stack hx) _).trans h2, h3⟩
    · intro x hx hu
      have hne : x ≠ m := by
        rintro rfl
        rw [cacheState_set_self] at hu
        cases hu
      exact (ho.base.unknown x hx ((cacheState_set_ne hne _).symm.trans hu)).imp_left
        fun h => (List.mem_cons.1 h).resolve_left hne
    · intro x r hx hbad
      by_cases hne : x = m
      · rw [hne]
        exact hd
      · exact ho.base.bad x r hx ((cacheState_set_ne hne _).symm.trans hbad)
    · intro x hx
      obtain ⟨h1, h2⟩ := ho.base.listed x hx
      have hne : x ≠ m := by
        rintro rfl
        exact (ho.base.inProgress x (List.mem_cons_self ..)).2.2 hx
      exact ⟨h1, h2.imp (.imp_left (cacheState_set_ne hne _).trans) (.imp_left (cacheState_set_ne hne _).trans)⟩
  · rintro _ ⟨⟩
    refine ⟨cacheState_set_self _, ?_⟩
    rcases hor with ⟨hall, hl⟩ | ha | ⟨y, hy, hdy, ha, hm, r, hr⟩
    · refine .inl ⟨fun x hx => ?_, hl⟩
      obtain ⟨_, hx⟩ := hback x hx
      -- a module that follows `m` would be on the list by now, and reach it
      have hnf : ¬ Retyped c init x → ¬ Follows c init x m := by
        intro hr hf
        rcases ho.ext.settled x hx with h | h
        · exact ho.not_follows h hr hf
        · rcases hl x h with h | h
          · exact ho.not_follows ⟨(ho.before.listed x h).1, .inr h⟩ hr hf
          · exact h (.single hf)
      by_cases hr : Retyped c init x
      · exact .inl hr
      · refine (hall x hx).imp_right fun ⟨hown, hd⟩ => ⟨hown, fun d hf => ?_⟩
        rcases hd d hf with hd | hd
        · exact .inl (hfwd d hd)
        · rcases List.mem_cons.1 hd with rfl | hd
          · exact absurd hf (hnf hr)
          · exact .inr hd
    · exact .inr ⟨m, .refl, hd, ha, ho.marked, reason, cacheState_set_self _⟩
    · refine .inr ⟨y, hy, hdy, ha, hm, r, (cacheState_set_ne ?_ _).trans hr⟩
      rintro rfl
      rw [(ho.base.inProgress y (List.mem_cons_self ..)).2.1] at hr
      cases hr

/-! ## The search -/

/-- The state in which the dependencies of a module are checked. -/
def opened (c : Compilation M) (s : State M) (m : M) : State M :=
  (s.setChecked m c.startMark).setCacheState m .msUnknown

theorem checked_opened_ne {x : M} (hne : x ≠ m) : (opened c s m).checked x = s.checked x := Function.update_of_ne hne _ _

theorem marked_opened : Marked c (opened c s m) m := Function.update_self ..

theorem unmarked_opened [Fintype M] (hm : ¬ Marked c s m) : (unmarked c (opened c s m)).card < (unmarked c s).card := by
  apply Finset.card_lt_card
  refine ⟨fun x hx => ?_, fun h => ?_⟩
  · simp only [unmarked, Finset.mem_filter_univ] at *
    by_cases hne : x = m
    · rw [hne]
      exact hm
    · rwa [checked_opened_ne hne] at hx
  · have hx : m ∈ unmarked c (opened c s m) := h (by simpa [unmarked, Marked] using hm)
    simp only [unmarked, Finset.mem_filter_univ] at hx
    exact hx marked_opened

theorem opened_opened (hb : Base c init s stack) (hs : AllSupported c init s stack) (hm : ¬ Marked c s m) :
    Opened c init s m stack (opened c s m) ∧ AllSupported c init (opened c s m) (m :: stack) := by
  have hmark : ∀ x, x ≠ m → (Marked c (opened c s m) x ↔ Marked c s x) := fun x hne => by
    rw [Marked, checked_opened_ne hne, Marked]
  have hcache : ∀ x, x ≠ m → (opened c s m).cacheState x = s.cacheState x := fun x hne => cacheState_set_ne hne _
  have hself : (opened c s m).cacheState m = .msUnknown := cacheState_set_self _
  have hlist : m ∉ s.unknownStateModules := fun h => hm (hb.listed m h).1
  have hne : ∀ x, Settled c (opened c s m) x → x ≠ m := by
    rintro x ⟨_, h⟩ rfl
    rcases h with h | h
    · rw [hself] at h
      cases h
    · exact hlist h
  have hback : ∀ x, Settled c (opened c s m) x → Settled c s x := fun x h =>
    ⟨(hmark x (hne x h)).1 h.1, h.2.imp_left (hcache x (hne x h)).symm.trans⟩
  have hext : Extends c s (opened c s m) := by
    refine ⟨fun x hx => ?_, fun x hx => hx, fun x hx => .inl (hback x hx)⟩
    have hne : x ≠ m := by
      rintro rfl
      exact hm hx
    exact ⟨(hmark x hne).2 hx, hcache x hne⟩
  refine ⟨⟨hm, hb, hs, hext, ?_, fun x hx => .inl hx⟩, fun x hx => ?_⟩
  · constructor
    · intro x hx
      have hne : x ≠ m := by
        rintro rfl
        exact hx marked_opened
      rw [hcache x hne]
      exact hb.fresh x fun h => hx ((hmark x hne).2 h)
    · intro x hx
      rcases List.mem_cons.1 hx with rfl | hx
      · exact ⟨marked_opened, hself, hlist⟩
      · obtain ⟨h1, h2, h3⟩ := hb.inProgress x hx
        exact ⟨(hext.marked x h1).1, (hext.marked x h1).2.trans h2, h3⟩
    · intro x hx hu
      by_cases hne : x = m
      · exact .inl (List.mem_cons.2 (.inl hne))
      · exact (hb.unknown x ((hmark x hne).1 hx) ((hcache x hne).symm.trans hu)).imp_left (List.mem_cons_of_mem _)
    · intro x r hx hbad
      have hne : x ≠ m := by
        rintro rfl
        rw [hself] at hbad
        cases hbad
      exact hb.bad x r ((hmark x hne).1 hx) ((hcache x hne).symm.trans hbad)
    · intro x hx
      obtain ⟨h1, h2⟩ := hb.listed x hx
      obtain ⟨h3, h4⟩ := hext.marked x h1
      exact ⟨h3, h2.imp (.imp_left h4.trans) (.imp_left h4.trans)⟩
  · refine (hs x (hback x hx)).imp_right fun ⟨hown, hd⟩ => ⟨hown, fun d hf => ?_⟩
    exact (hd d hf).imp (·.extends hext) (List.mem_cons_of_mem _)

@[simp] theorem setCacheState_set (a b : CacheState M) :
    (t.setCacheState m a).setCacheState m b = t.setCacheState m b := by
  simp [State.setCacheState]

theorem setCacheState_eq_self {state : CacheState M} (h : t.cacheState m = state) : t.setCacheState m state = t := by
  subst h
  simp [State.setCacheState]

theorem finish_none : c.finish m none t = (none, t.addUnknown m) := rfl

theorem finish_retyped {reason : SkipReason M} (h : reason.isDependencyDirty = true) (hr : Retypes c m) :
    c.finish m (some reason) t = (none, (t.setCacheState m .msGood).addUnknown m) := by
  cases reason with
  | dependencyDirty path reason => simp [Compilation.finish, Compilation.retyped, hr.1, hr.2]
  | tainted | fileChanged | shadowed | libraryChanged => cases h

theorem finish_bad {reason : SkipReason M} (h : reason.isDependencyDirty = true → ¬ Retypes c m) :
    c.finish m (some reason) t = (some reason, t.setCacheState m (.msBad reason)) := by
  cases reason with
  | dependencyDirty path reason =>
    simp only [Compilation.finish, Compilation.retyped]
    by_cases hp : c.hasPolicy m .retype = true
    · cases hret : c.attemptRetyping m with
      | none => exact absurd ⟨hp, hret⟩ (h rfl)
      | some _ => simp [hp]
    · simp [hp]
  | tainted | fileChanged | shadowed | libraryChanged => rfl

/-- The state before does not matter where the state is set. -/
theorem finish_set (reason : SkipReason M) (state : CacheState M) :
    c.finish m (some reason) (t.setCacheState m state) = c.finish m (some reason) t := by
  by_cases hret : reason.isDependencyDirty = true ∧ Retypes c m
  · rw [finish_retyped hret.1 hret.2, finish_retyped hret.1 hret.2, setCacheState_set]
  · have hnr : reason.isDependencyDirty = true → ¬ Retypes c m := fun h1 h2 => hret ⟨h1, h2⟩
    rw [finish_bad hnr, finish_bad hnr, setCacheState_set]

/-- A module with something found out about itself. -/
theorem checked_own (ho : Opened c init s m stack (opened c s m)) (hall : AllSupported c init (opened c s m) (m :: stack))
    {reason : SkipReason M} (hown : ownReason c init m = some reason) :
    ∃ dirty s', c.finish m (some reason) (opened c s m) = (dirty, s') ∧ Checked c init s m stack dirty s' := by
  by_cases hret : reason.isDependencyDirty = true ∧ Retypes c m
  · have hretyp : Retyped c init m := ⟨hret.2, .inl ⟨reason, hown, hret.1⟩⟩
    exact ⟨_, _, finish_retyped hret.1 hret.2, checked_settled ho hall (.inr ⟨rfl, hretyp⟩) (.inl hretyp)⟩
  · have hnr : reason.isDependencyDirty = true → ¬ Retypes c m := fun h1 h2 => hret ⟨h1, h2⟩
    exact ⟨_, _, finish_bad hnr, checked_bad ho reason (.own hown hnr) (.inl ⟨hall, fun _ h => .inl h⟩)⟩

/-- A module after the checks of its dependencies. -/
theorem checked_deps (ho : Opened c init s m stack (opened c s m)) (hf : FollowsDeps c init m) (hgood : init m = .msGood)
    (hsafe : Safe c init m)
    {dirty : Option (SkipReason M)} (h : CheckedDeps c init (opened c s m) (c.deps m) (m :: stack) dirty t) :
    ∃ dirty' s', c.finish m dirty t = (dirty', s') ∧ Checked c init s m stack dirty' s' := by
  have ho' : Opened c init s m stack t := by
    refine ⟨ho.unmarked, ho.before, ho.supported, ho.ext.trans h.ext, h.base, fun x hx => ?_⟩
    rcases h.listed x hx with hx | ⟨hn, d, hd, hr⟩
    · exact .inl hx
    · exact .inr ⟨fun hm => hn (ho.ext.marked x hm).1, .head ⟨hf, hd⟩ hr⟩
  have hu : t.cacheState m = .msUnknown := (h.base.inProgress m (List.mem_cons_self ..)).2.1
  cases dirty with
  | none =>
    obtain ⟨hds, hall⟩ := h.clean rfl
    have hc : Checked c init s m stack none ((t.setCacheState m .msUnknown).addUnknown m) :=
      checked_settled ho' hall (.inl ⟨rfl, hgood⟩) (.inr ⟨hf.1, fun d hfd => hds d hfd.2⟩)
    rw [setCacheState_eq_self hu] at hc
    exact ⟨_, _, finish_none, hc⟩
  | some reason =>
    obtain ⟨l₁, d, l₂, r, hsplit, rfl, hmd, hbad, hor⟩ := h.dirty reason rfl
    have hfd : Follows c init m d := ⟨hf, by rw [hsplit]; exact List.mem_append_right _ (List.mem_cons_self ..)⟩
    by_cases hret : Retypes c m
    · have hall : AllSupported c init t (m :: stack) := by
        rcases hor with ⟨hall, _⟩ | ⟨y, hy, hdy, ha, _, r', hr'⟩
        · exact hall
        · refine absurd ha (hsafe m .refl hret y (.head hfd hy) ?_ hdy)
          rintro rfl
          rw [hu] at hr'
          cases hr'
      have hretyp : Retyped c init m := ⟨hret, .inr ⟨d, hfd, h.base.bad d r hmd hbad⟩⟩
      exact ⟨_, _, finish_retyped rfl hret, checked_settled ho' hall (.inr ⟨rfl, hretyp⟩) (.inl hretyp)⟩
    · refine ⟨_, _, finish_bad fun _ => hret, checked_bad ho' _ (.dependency hfd (h.base.bad d r hmd hbad) hret) ?_⟩
      rcases hor with ⟨hall, hl⟩ | ⟨y, hy, hb⟩
      · by_cases ha : AssumedEarly c init m
        · exact .inr (.inl ha)
        · refine .inl ⟨hall, fun x hx => ?_⟩
          rcases hl x hx with hx | ⟨d', hd', hr⟩ | hnr
          · exact .inl hx
          · refine .inr fun hxm => ha ?_
            obtain ⟨a, b, rfl⟩ := List.append_of_mem hd'
            exact ⟨a, d', b, d, l₂, by rw [hsplit]; simp, hf, hr.trans hxm, h.base.bad d r hmd hbad⟩
          · exact .inr fun hxm => hnr (hxm.tail hfd)
      · exact .inr (.inr ⟨y, .head hfd hy, hb⟩)

/-- A check ends, and does what `Checked` says. -/
theorem check_spec [Fintype M] (hinit : ∀ x, init x ≠ .msUnknown) : ∀ (fuel : Nat) (s : State M) (m : M) (stack : List M),
    Base c init s stack → AllSupported c init s stack → Safe c init m → (unmarked c s).card < fuel →
      ∃ dirty s', c.check fuel s m = .ok (dirty, s') ∧ Checked c init s m stack dirty s'
  | 0, s, m, stack, _, _, _, h => absurd h (Nat.not_lt_zero _)
  | fuel + 1, s, m, stack, hb, hs, hsafe, hfuel => by
    unfold Compilation.check
    by_cases hm : s.checked m = c.startMark
    · rw [if_pos hm]
      cases hc : s.cacheState m with
      | msGood => exact ⟨none, s, rfl, checked_marked hb hs hm (by rw [hc])⟩
      | msUnknown => exact ⟨none, s, rfl, checked_marked hb hs hm (by rw [hc])⟩
      | msBad reason => exact ⟨some reason, s, rfl, checked_marked hb hs hm (by rw [hc])⟩
    · rw [if_neg hm]
      obtain ⟨ho, hall⟩ := opened_opened hb hs hm
      have hst : (s.setChecked m c.startMark).cacheState m = init m := hb.fresh m hm
      cases hc : init m with
      | msUnknown => exact absurd hc (hinit m)
      | msBad reason =>
        simp only [hst, hc]
        have hown : ownReason c init m = some reason := by simp only [ownReason, hc]
        obtain ⟨dirty, s', hfin, hch⟩ := checked_own ho hall hown
        exact ⟨dirty, s', congrArg _ ((finish_set reason _).symm.trans hfin), hch⟩
      | msGood =>
        simp only [hst, hc]
        cases how : c.ownChecks m with
        | some reason =>
          have hown : ownReason c init m = some reason := by simp only [ownReason, hc, how]
          obtain ⟨dirty, s', hfin, hch⟩ := checked_own ho hall hown
          exact ⟨dirty, s', congrArg _ hfin, hch⟩
        | none =>
          have hown : ownReason c init m = none := by simp only [ownReason, hc, how]
          cases hp : c.hasPolicy m .noCheckDependencies with
          | true =>
            have hch : Checked c init s m stack none (((opened c s m).setCacheState m .msUnknown).addUnknown m) :=
              checked_settled ho hall (.inl ⟨rfl, hc⟩) (.inr ⟨hown, fun d hf => by rw [hf.1.2] at hp; cases hp⟩)
            rw [setCacheState_eq_self (t := opened c s m) (cacheState_set_self _)] at hch
            exact ⟨_, _, rfl, hch⟩
          | false =>
            have hrun : ∃ dirty t, Compilation.checkDependencies (c.check fuel) (opened c s m) (c.deps m) = .ok (dirty, t) ∧
                CheckedDeps c init (opened c s m) (c.deps m) (m :: stack) dirty t :=
              checkDependencies_spec (c.check fuel) (fun s => (unmarked c s).card < fuel)
                (fun s s' he h => (unmarked_extends he).trans_lt h)
                (fun s d hb hs hsafe h => check_spec hinit fuel s d _ hb hs hsafe h) (c.deps m) (opened c s m)
                ho.base hall (fun d hd => hsafe.of_reaches _ _ (.single ⟨⟨hown, hp⟩, hd⟩))
                (by have := unmarked_opened hm; omega)
            obtain ⟨dirty, t, hrun, hd⟩ := hrun
            obtain ⟨dirty', s', hfin, hch⟩ := checked_deps ho ⟨hown, hp⟩ hc hsafe hd
            refine ⟨dirty', s', ?_, hch⟩
            unfold opened at hrun
            simp only [hrun, hfin, Bool.false_eq_true, if_false]

end Search

end EvilHaxe.Server
