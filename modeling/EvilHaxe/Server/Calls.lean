/-
Calls of `check_module` in one compilation step. Between them no module is unknown, and the good ones that are marked
follow good ones only; so the answer that a module can be reused holds for everything behind it.
-/
import EvilHaxe.Server.Reuse

namespace EvilHaxe.Server

variable {M : Type} {c : Compilation M} {init : M → CacheState M}

/-! ## Between the calls -/

/-- The state a call begins with. -/
def cleared (s : State M) : State M := { s with unknownStateModules := [] }

variable (c init) in
/-- The invariant between calls. -/
structure Between (s : State M) : Prop where
  base : Base c init (cleared s) []
  supported : AllSupported c init (cleared s) []

theorem settled_cleared {s : State M} {x : M} : Settled c (cleared s) x ↔ s.checked x = c.startMark ∧ s.cacheState x = .msGood :=
  ⟨fun ⟨hm, h⟩ => ⟨hm, h.resolve_right (fun h => nomatch h)⟩, fun ⟨hm, h⟩ => ⟨hm, .inl h⟩⟩

theorem Between.of_fresh {s : State M} (hmark : ∀ x, s.checked x ≠ c.startMark) : Between c s.cacheState s where
  base := ⟨fun _ _ => rfl, fun _ h => (nomatch h), fun x h => absurd h (hmark x), fun x _ h => absurd h (hmark x),
    fun _ h => (nomatch h)⟩
  supported x h := absurd h.1 (hmark x)

/-- A module that is clean has the mark and the good state, and so has everything behind it. -/
def Reused (c : Compilation M) (init : M → CacheState M) (s : State M) (m : M) : Prop :=
  ∀ x, Relation.ReflTransGen (FollowedPast c init) m x →
    Clean c init x ∧ s.checked x = c.startMark ∧ s.cacheState x = .msGood

theorem Between.reused {s : State M} (hb : Between c init s) {m : M} (hm : Settled c (cleared s) m) : Reused c init s m := by
  intro x hx
  have hset : Settled c (cleared s) x := by
    induction hx with
    | refl => exact hm
    | tail _ hf ih =>
      rcases hb.supported _ ih with h | ⟨_, h⟩
      · exact absurd h hf.2
      · exact (h _ hf.1).resolve_right fun h => nomatch h
  refine ⟨clean_of_not_dirty c init (not_dirty_of_supported hb.supported hset) .refl, ?_⟩
  exact settled_cleared.1 hset

/-- No module that is good in this step follows a bad one. -/
theorem Between.not_bad {s : State M} (hb : Between c init s) {x d : M} (hm : s.checked x = c.startMark)
    (hg : s.cacheState x = .msGood) (hf : FollowedPast c init x d) (reason : SkipReason M) :
    s.cacheState d ≠ .msBad reason := by
  have hd := (hb.reused (settled_cleared.2 ⟨hm, hg⟩) d (.single hf)).2.2
  rw [hd]
  exact fun h => nomatch h

/-! ## The end of a call -/

variable [DecidableEq M]

theorem foldl_setGood : ∀ (l : List M) (s : State M), (l.foldl Compilation.setGood s).checked = s.checked ∧
    ∀ x, (l.foldl Compilation.setGood s).cacheState x = if x ∈ l then .msGood else s.cacheState x
  | [], s => ⟨rfl, fun x => by simp⟩
  | m :: rest, s => by
    obtain ⟨h1, h2⟩ := foldl_setGood rest (s.setCacheState m .msGood)
    refine ⟨h1, fun x => ?_⟩
    rw [List.foldl_cons, show Compilation.setGood s m = s.setCacheState m .msGood from rfl, h2 x]
    by_cases hr : x ∈ rest
    · simp [hr]
    · by_cases hx : x = m
      · subst hx
        simp [hr]
      · simp [hr, hx, cacheState_set_ne hx]

/-- What a rollback does to a module: it is to be checked again, or keeps its mark and state. -/
def RolledBack (c : Compilation M) (s s' : State M) (x : M) : Prop :=
  (s.cacheState x = .msUnknown ∧ s'.checked x = c.startMark - 1 ∧ s'.cacheState x = .msGood) ∨
    (s'.checked x = s.checked x ∧ s'.cacheState x = s.cacheState x)

theorem rollback_self {s : State M} {m : M} (h : s.cacheState m = .msUnknown) :
    (c.rollback s m).checked m = c.startMark - 1 ∧ (c.rollback s m).cacheState m = .msGood := by
  simp [Compilation.rollback, h, State.setCacheState, State.setChecked]

theorem rollback_other {s : State M} {m x : M} (h : x ≠ m ∨ s.cacheState m ≠ .msUnknown) :
    (c.rollback s m).checked x = s.checked x ∧ (c.rollback s m).cacheState x = s.cacheState x := by
  unfold Compilation.rollback
  cases hs : s.cacheState m with
  | msUnknown =>
    have hne : x ≠ m := h.resolve_right (not_not_intro hs)
    simp [State.setCacheState, State.setChecked, hne]
  | msGood | msBad reason => exact ⟨rfl, rfl⟩

theorem foldl_rollback : ∀ (l : List M) (s : State M) (x : M), RolledBack c s (l.foldl c.rollback s) x ∧
    (x ∈ l → (l.foldl c.rollback s).cacheState x ≠ .msUnknown)
  | [], s, x => ⟨.inr ⟨rfl, rfl⟩, fun h => nomatch h⟩
  | m :: rest, s, x => by
    obtain ⟨h1, h2⟩ := foldl_rollback rest (c.rollback s m) x
    rw [List.foldl_cons]
    by_cases hx : x = m ∧ s.cacheState m = .msUnknown
    · obtain ⟨rfl, hu⟩ := hx
      obtain ⟨hc, hg⟩ := rollback_self (c := c) hu
      rcases h1 with ⟨h, _⟩ | ⟨h3, h4⟩
      · rw [hg] at h
        cases h
      · refine ⟨.inl ⟨hu, h3.trans hc, h4.trans hg⟩, fun _ => ?_⟩
        rw [h4, hg]
        exact fun h => nomatch h
    · obtain ⟨hc, hg⟩ := rollback_other (c := c) (x := x) (Decidable.not_and_iff_not_or_not.1 hx)
      refine ⟨?_, fun hm => ?_⟩
      · rcases h1 with ⟨h, h'⟩ | ⟨h3, h4⟩
        · exact .inl ⟨hg.symm.trans h, h'⟩
        · exact .inr ⟨h3.trans hc, h4.trans hg⟩
      · rcases List.mem_cons.1 hm with rfl | hm
        · rcases h1 with ⟨_, _, h⟩ | ⟨_, h⟩
          · rw [h]
            exact fun h => nomatch h
          · rw [h, hg]
            exact fun h => hx ⟨rfl, h⟩
        · exact h2 hm

theorem between_good {s t : State M} (hall : AllSupported c init t []) (hb : Base c init t [])
    (hs : s = t.unknownStateModules.foldl Compilation.setGood t) :
    Between c init s ∧ ∀ x, Settled c t x → Settled c (cleared s) x := by
  obtain ⟨h1, h2⟩ := foldl_setGood t.unknownStateModules t
  have hmark : ∀ x, Marked c (cleared s) x ↔ Marked c t x := fun x => by
    subst hs
    unfold Marked cleared
    rw [h1]
  have hin : ∀ x, x ∈ t.unknownStateModules → (cleared s).cacheState x = .msGood := fun x hx => by
    subst hs
    exact (h2 x).trans (if_pos hx)
  have hout : ∀ x, x ∉ t.unknownStateModules → (cleared s).cacheState x = t.cacheState x := fun x hx => by
    subst hs
    exact (h2 x).trans (if_neg hx)
  have hset : ∀ x, Settled c t x → Settled c (cleared s) x := by
    rintro x ⟨hm, h⟩
    refine ⟨(hmark x).2 hm, .inl ?_⟩
    by_cases hx : x ∈ t.unknownStateModules
    · exact hin x hx
    · exact (hout x hx).trans (h.resolve_right hx)
  have hnot : ∀ x, (cleared s).cacheState x ≠ .msGood → x ∉ t.unknownStateModules := fun x h hx => h (hin x hx)
  refine ⟨⟨⟨?_, fun _ h => (nomatch h), ?_, ?_, fun _ h => (nomatch h)⟩, ?_⟩, hset⟩
  · intro x hx
    have hx' : ¬ Marked c t x := fun h => hx ((hmark x).2 h)
    exact (hout x fun h => hx' (hb.listed x h).1).trans (hb.fresh x hx')
  · intro x hm hu
    have hn := hnot x (by rw [hu]; exact fun h => nomatch h)
    rcases hb.unknown x ((hmark x).1 hm) ((hout x hn).symm.trans hu) with h | h
    · cases h
    · exact absurd h hn
  · intro x r hm hbad
    have hn := hnot x (by rw [hbad]; exact fun h => nomatch h)
    exact hb.bad x r ((hmark x).1 hm) ((hout x hn).symm.trans hbad)
  · rintro x ⟨hm, h⟩
    have ht : Settled c t x := by
      refine ⟨(hmark x).1 hm, ?_⟩
      by_cases hx : x ∈ t.unknownStateModules
      · exact .inr hx
      · exact .inl ((hout x hx).symm.trans (h.resolve_right fun h => nomatch h))
    exact (hall x ht).imp_right fun ⟨hown, hd⟩ => ⟨hown, fun d hf => (hd d hf).imp_left (hset d)⟩

theorem between_rollback (hinit : ∀ x, init x ≠ .msUnknown) {s s0 t : State M} (hbt : Between c init s0) (hext : Extends c (cleared s0) t) (hb : Base c init t [])
    (hs : s = t.unknownStateModules.foldl c.rollback t) : Between c init s := by
  have hroll : ∀ x, RolledBack c t s x := fun x => by
    subst hs
    exact (foldl_rollback _ t x).1
  have hlist : ∀ x ∈ t.unknownStateModules, s.cacheState x ≠ .msUnknown := fun x hx => by
    subst hs
    exact (foldl_rollback _ t x).2 hx
  have hkeep : ∀ x, Marked c (cleared s) x → Marked c t x ∧ s.cacheState x = t.cacheState x := by
    intro x hm
    rcases hroll x with ⟨_, hc, _⟩ | ⟨hc, hg⟩
    · have hm' : s.checked x = c.startMark := hm
      omega
    · exact ⟨hc.symm.trans hm, hg⟩
  have hold : ∀ d, Settled c (cleared s0) d → Settled c (cleared s) d := by
    intro d hd
    obtain ⟨hm, hst⟩ := hext.marked d hd.1
    have hgood : t.cacheState d = .msGood := hst.trans (settled_cleared.1 hd).2
    rcases hroll d with ⟨h, _⟩ | ⟨hc, hg⟩
    · rw [hgood] at h
      cases h
    · exact settled_cleared.2 ⟨hc.trans hm, hg.trans hgood⟩
  refine ⟨⟨?_, fun _ h => (nomatch h), ?_, ?_, fun _ h => (nomatch h)⟩, ?_⟩
  · intro x hx
    change s.cacheState x = init x
    rcases hroll x with ⟨hu, hc, hg⟩ | ⟨hc, hg⟩
    · by_cases hm : Marked c t x
      · rcases hb.unknown x hm hu with h | h
        · cases h
        · rcases (hb.listed x h).2 with ⟨_, hi⟩ | ⟨h', _⟩
          · exact hg.trans hi.symm
          · rw [hu] at h'
            cases h'
      · exact absurd ((hb.fresh x hm).symm.trans hu) (hinit x)
    · exact hg.trans (hb.fresh x fun h => hx (hc.trans h))
  · intro x hm hu
    obtain ⟨hmt, hst⟩ := hkeep x hm
    rcases hb.unknown x hmt (hst.symm.trans hu) with h | h
    · cases h
    · exact absurd hu (hlist x h)
  · intro x r hm hbad
    obtain ⟨hmt, hst⟩ := hkeep x hm
    exact hb.bad x r hmt (hst.symm.trans hbad)
  · intro x hx
    obtain ⟨hmt, hst⟩ := hkeep x hx.1
    have hgood : t.cacheState x = .msGood := hst.symm.trans (settled_cleared.1 hx).2
    rcases hext.settled x ⟨hmt, .inl hgood⟩ with h | h
    · exact (hbt.supported x h).imp_right fun ⟨hown, hd⟩ => ⟨hown, fun d hf => (hd d hf).imp_left (hold d)⟩
    · rcases (hb.listed x h).2 with ⟨h', _⟩ | ⟨_, hr⟩
      · rw [hgood] at h'
        cases h'
      · exact .inl hr

/-! ## Calls -/

/-- A call ends, and keeps the invariant. When it answers that the module can be reused, so can everything behind it. -/
theorem checkModule_spec [Fintype M] (hinit : ∀ x, init x ≠ .msUnknown) {s : State M} (hb : Between c init s) {m : M}
    (hsafe : Safe c init m) : ∃ state s', c.checkModule (Fintype.card M + 1) s m = .ok (state, s') ∧ Between c init s' ∧
      (state = none → Reused c init s' m) ∧ ∀ x, Reused c init s x → Reused c init s' x := by
  obtain ⟨dirty, t, hrun, hc⟩ := check_spec hinit (Fintype.card M + 1) (cleared s) m [] hb.base hb.supported hsafe
    (Nat.lt_succ_of_le (Finset.card_le_univ _))
  unfold cleared at hrun
  cases dirty with
  | none =>
    obtain ⟨hset, hall⟩ := hc.clean rfl
    obtain ⟨hbt, hgood⟩ := between_good hall hc.base rfl
    refine ⟨none, _, by rw [Compilation.checkModule, hrun], hbt, fun _ => hbt.reused ?_, fun x hx => hbt.reused ?_⟩
    · exact hgood m (hset.resolve_right fun h => nomatch h)
    · exact hgood x ((settled_cleared.2 (hx x .refl).2).extends hc.ext)
  | some reason =>
    have hbt := between_rollback hinit hb hc.ext hc.base rfl
    refine ⟨some reason, _, by rw [Compilation.checkModule, hrun], hbt, fun h => (nomatch h), fun x hx => hbt.reused ?_⟩
    have hold := settled_cleared.2 (hx x .refl).2
    obtain ⟨hm, hst⟩ := hc.ext.marked x hold.1
    have hgood : t.cacheState x = .msGood := hst.trans (settled_cleared.1 hold).2
    rcases (foldl_rollback t.unknownStateModules t x).1 with ⟨h, _⟩ | ⟨h1, h2⟩
    · rw [hgood] at h
      cases h
    · exact settled_cleared.2 ⟨h1.trans hm, h2.trans hgood⟩

theorem checkModules_spec [Fintype M] (hinit : ∀ x, init x ≠ .msUnknown) :
    ∀ (roots : List M) (s : State M), Between c init s → (∀ m ∈ roots, Safe c init m) →
      ∃ states s', c.checkModules (Fintype.card M + 1) s roots = .ok (states, s') ∧ Between c init s' ∧
        List.Forall₂ (fun m state => state = none → Reused c init s' m) roots states ∧
        ∀ x, Reused c init s x → Reused c init s' x
  | [], s, hb, _ => ⟨[], s, rfl, hb, .nil, fun _ h => h⟩
  | m :: rest, s, hb, hsafe => by
    obtain ⟨hm, hrest⟩ := List.forall_mem_cons.1 hsafe
    obtain ⟨state, s1, hrun, hb1, hr1, hk1⟩ := checkModule_spec hinit hb hm
    obtain ⟨states, s2, hrun2, hb2, hr2, hk2⟩ := checkModules_spec hinit rest s1 hb1 hrest
    exact ⟨state :: states, s2, by simp only [Compilation.checkModules, hrun, hrun2], hb2,
      .cons (fun h => hk2 m (hr1 h)) hr2, fun x h => hk2 x (hk1 x h)⟩

/-- In every sequence of calls from a state at the beginning of a compilation step, on roots below which no retyped module
has a dirty one behind it that was assumed clean: every call has an answer; a module that is answered to be reusable is
clean, with every module behind it that is followed; and no good module follows a bad one. -/
theorem checkModules_sound [Fintype M] {s : State M} (hmark : ∀ x, s.checked x ≠ c.startMark)
    (hstate : ∀ x, s.cacheState x ≠ .msUnknown) {roots : List M} (hsafe : ∀ m ∈ roots, Safe c s.cacheState m) :
    ∃ states s', c.checkModules (Fintype.card M + 1) s roots = .ok (states, s') ∧
      List.Forall₂ (fun m state => state = none → Reused c s.cacheState s' m) roots states ∧
      ∀ x d, s'.checked x = c.startMark → s'.cacheState x = .msGood → FollowedPast c s.cacheState x d →
        ∀ reason, s'.cacheState d ≠ .msBad reason := by
  obtain ⟨states, s', hrun, hb, hr, _⟩ := checkModules_spec hstate roots s (.of_fresh hmark) hsafe
  exact ⟨states, s', hrun, hr, fun x d hm hg hf reason => hb.not_bad hm hg hf reason⟩

/-! ## A module assumed clean below a retyped one -/

/-- `top` is retyped. `inner` and `cyclic` depend on each other, and `inner` also on `changed`. -/
inductive Module where
  | top
  | inner
  | cyclic
  | changed
  deriving DecidableEq

instance : Fintype Module := ⟨{.top, .inner, .cyclic, .changed}, fun m => by cases m <;> decide⟩

def step : Compilation Module where
  startMark := 1
  checkPolicy m := if m = .top then [.retype] else []
  deps
    | .top => [.inner]
    | .inner => [.cyclic, .changed]
    | .cyclic => [.inner]
    | .changed => []
  file _ := "Module.hx"
  hasExtensionHx _ := true
  doNotCheckModules := false
  checkModulePath _ := none
  fileTimeDiffers m := decide (m = .changed)
  contentChanged _ := true
  attemptRetyping _ := none

def cache : State Module where
  checked _ := 0
  cacheState _ := .msGood
  unknownStateModules := []

theorem top_of_retypes {m : Module} (h : Retypes step m) : m = .top := by
  have h1 := h.1
  cases m <;> first | rfl | exact absurd h1 (by decide)

theorem safe_below_top {m : Module} (hm : m ≠ .top) : Safe step cache.cacheState m := by
  intro r hr hret
  have hne : r ≠ .top := by
    rcases hr.cases_tail with rfl | ⟨y, _, hf⟩
    · exact hm
    · rintro rfl
      have hd := hf.2
      cases y <;> exact absurd hd (by decide)
  exact absurd (top_of_retypes hret) hne

theorem checkModules_sound_below_top :
    ∃ states s', step.checkModules (Fintype.card Module + 1) cache [.cyclic, .changed, .inner] = .ok (states, s') ∧
      List.Forall₂ (fun m state => state = none → Reused step cache.cacheState s' m) [.cyclic, .changed, .inner] states ∧
      ∀ x d, s'.checked x = step.startMark → s'.cacheState x = .msGood → FollowedPast step cache.cacheState x d →
        ∀ reason, s'.cacheState d ≠ .msBad reason :=
  checkModules_sound (by decide) (fun _ => by simp [cache]) (by
    intro m hm
    exact safe_below_top (by rintro rfl; revert hm; decide))

/-- The module that was assumed clean is reused although the module it depends on is not. -/
theorem stale_reused : ∃ s', step.checkModules (Fintype.card Module + 1) cache [.top, .cyclic] = .ok ([none, none], s') ∧
    ¬ Reused step cache.cacheState s' .cyclic := by
  refine ⟨_, rfl, fun h => ?_⟩
  have hnr : ∀ m : Module, m ≠ .top → ¬ Retyped step cache.cacheState m := fun m hm hr => hm (top_of_retypes hr.1)
  have h1 : FollowedPast step cache.cacheState .cyclic .inner := ⟨⟨⟨rfl, rfl⟩, by decide⟩, hnr _ (by decide)⟩
  have h2 : FollowedPast step cache.cacheState .inner .changed := ⟨⟨⟨rfl, rfl⟩, by decide⟩, hnr _ (by decide)⟩
  rcases (h .changed (.tail (.single h1) h2)).1 with h | h
  · cases h
  · exact hnr _ (by decide) h

end EvilHaxe.Server
