/-
Block hooks: in a run in which no block callback fails, no `on_block_next` call is cut short, no mod
calls `parseBlockInternals` and no syntax error is recovered, the calls of the `on_block` and of the
`on_block_next` hooks are balanced, whatever the mods do.

The invariant is on the trace. All parsers but those that read a block of braces keep it because what
they call does; for a block the brackets are put together from the parts of its run.
-/
import EvilHaxe.Lib.Brackets
import EvilHaxe.Evil.TokenStream
import EvilHaxe.Grammar.Chains

namespace EvilHaxe.Evil

open EvilHaxe.Syntax EvilHaxe.Grammar Lib

variable {σ α : Type}

/-! ## What is seen of a run -/

/-- What may unbalance the calls. -/
def isBad : Note → Bool
  | .recovered | .blockHookFailed | .blockNextCut | .blockInternals => true
  | _ => false

/-- The calls of the hooks, or those of their `i`-th and `j`-th callbacks. -/
inductive View where
  | sites
  | calls (i j : Nat)

def View.bracket : View → Note → Option (Bracket Pos)
  | .sites, .blockStart b => some (.opening b)
  | .sites, .blockNext b => some (.closing b)
  | .calls i _, .blockHook k b => if k = i then some (.opening b) else none
  | .calls _ j, .blockNextHook k b => if k = j then some (.closing b) else none
  | _, _ => none

/-- The callbacks are there. -/
def View.Installed (hooks : Hooks σ) : View → Prop
  | .sites => True
  | .calls i j => i < hooks.onBlock.length ∧ j < hooks.onBlockNext.length

/-- The run from `s` to `s'` has brackets like `X`, if nothing bad happened in it. -/
def Seg (v : View) (X : List (Bracket Pos) → Prop) (s s' : State σ) : Prop :=
  ∃ w, s'.trace = s.trace ++ w ∧ ((∀ e ∈ w, isBad e = false) → X (w.filterMap v.bracket))

variable {v : View} {X Y : List (Bracket Pos) → Prop} {s s' s'' : State σ}

theorem Seg.mono (h : Seg v X s s') (hXY : ∀ z, X z → Y z) : Seg v Y s s' := by
  obtain ⟨w, hw, hX⟩ := h
  exact ⟨w, hw, fun hc => hXY _ (hX hc)⟩

theorem Seg.trans {Z : List (Bracket Pos) → Prop} (h : Seg v X s s') (h' : Seg v Y s' s'')
    (hZ : ∀ x y, X x → Y y → Z (x ++ y)) : Seg v Z s s'' := by
  obtain ⟨w, hw, hX⟩ := h
  obtain ⟨w', hw', hY⟩ := h'
  refine ⟨w ++ w', by rw [hw', hw, List.append_assoc], fun hc => ?_⟩
  rw [List.filterMap_append]
  exact hZ _ _ (hX fun e he => hc e (List.mem_append_left _ he))
    (hY fun e he => hc e (List.mem_append_right _ he))

theorem Seg.any (h : Seg v X s s') : Seg v (fun _ => True) s s' := h.mono fun _ _ => trivial

theorem Seg.trans_any (h : Seg v X s s') (h' : Seg v Y s' s'') : Seg v (fun _ => True) s s'' :=
  h.trans h' fun _ _ _ _ => trivial

theorem seg_of_trace_eq (h : s'.trace = s.trace) (hX : X []) : Seg v X s s' :=
  ⟨[], by rw [h, List.append_nil], fun _ => hX⟩

theorem seg_note (e : Note) : Seg v (· = (v.bracket e).toList) s (s.note e) := by
  refine ⟨[e], rfl, fun _ => ?_⟩
  cases h : v.bracket e <;> simp [h]

theorem seg_note_bad {e : Note} (h : isBad e = true) : Seg v X s (s.note e) :=
  ⟨[e], rfl, fun hc => by rw [hc e (List.mem_singleton.2 rfl)] at h; cases h⟩

/-- Something bad happened. -/
abbrev Bad (v : View) (s s' : State σ) : Prop := Seg v (fun _ => False) s s'

theorem Seg.bad (h : Seg v X s s') (h' : Bad v s' s'') : Seg v Y s s'' :=
  h.trans h' fun _ _ _ => False.elim

/-- Balanced calls; in a run that ends in an error, any. -/
def balance (σ : Type) (v : View) : Invariant (State σ) where
  Inv := Seg v Balanced
  Err := Seg v fun _ => True
  refl _ := seg_of_trace_eq rfl .nil
  trans h h' := h.trans h' fun _ _ => Balanced.append
  err h := h.any
  inv_err h h' := h.trans_any h'

/-- Any calls: the trace only grows. -/
def growth (σ : Type) (v : View) : Invariant (State σ) where
  Inv := Seg v fun _ => True
  Err := Seg v fun _ => True
  refl _ := seg_of_trace_eq rfl trivial
  trans h h' := h.trans_any h'
  err h := h
  inv_err h h' := h.trans_any h'

theorem growth_of_seg {r : Outcome Exc α × State σ} (h : Seg v (fun _ => True) s r.2) :
    (growth σ v).Holds s r := by
  obtain ⟨_ | _ | _, _⟩ := r <;> exact h

theorem seg_of_growth {r : Outcome Exc α × State σ} (h : (growth σ v).Holds s r) :
    Seg v (fun _ => True) s r.2 := by
  obtain ⟨_ | _ | _, _⟩ := r <;> exact h

theorem growth_of_balance {r : Outcome Exc α × State σ} (h : (balance σ v).Holds s r) :
    (growth σ v).Holds s r := by
  obtain ⟨_ | _ | _, _⟩ := r
  · exact Seg.any h
  · exact Seg.any h
  · exact h

/-- After something bad anything may follow. -/
theorem balance_of_bad {r : Outcome Exc α × State σ} (h : Bad v s s') (hr : (growth σ v).Holds s' r) :
    (balance σ v).Holds s r := by
  have hs : ∀ X, Seg v X s r.2 := fun X => h.trans (seg_of_growth hr) fun _ _ hf _ => hf.elim
  obtain ⟨_ | _ | _, _⟩ := r
  · exact hs Balanced
  · exact hs Balanced
  · exact hs fun _ => True

/-! ## One unfolding of the operations -/

/-- These operations have no failure. -/
def neverFails : Op → Bool
  | .nt (.block _ _) => true
  | .nt _ | .recover _ _ => false
  | _ => true

/-- What an operation does to the trace. -/
def Spec (v : View) : (o : (fullSig σ).Op) → State σ → Outcome Exc ((fullSig σ).Res o) × State σ → Prop
  | .inl o, s, r => (balance σ v).Holds s r ∧ (neverFails o = true → r.1 ≠ .fail)
  | .inr (.note e), s, r => r = (.ok (), s.note e)
  | .inr .getUser, s, r => r.1 = .ok s.user ∧ r.2 = s
  | .inr (.setUser _), s, r => r.1 = .ok () ∧ r.2.trace = s.trace

section

variable {H : Handler (fullSig σ) Exc (State σ)} (hH : ∀ o s r, H o s = some r → Spec v o s r)
include hH

theorem plain_holds (p : P α) {r : Outcome Exc α × State σ} (h : (plain p).run H s = some r) :
    (balance σ v).Holds s r := by
  rw [plain, Prog.run_inl] at h
  exact Invariant.run_holds (fun o s r h => (hH (.inl o) s r h).1) p s r h

/-- A callback only calls parsers. -/
theorem callback_holds (cx : Settings) (p : Callback σ α) {r : Outcome Exc α × State σ}
    (h : (callback cx p).run H s = some r) : (balance σ v).Holds s r := by
  rw [callback, Prog.run_interp] at h
  refine Invariant.run_holds (fun o s r h => ?_) p s r h
  cases o with
  | getUser =>
    obtain ⟨hr, hs⟩ : r.1 = _ ∧ r.2 = s := hH _ _ _ ((Prog.run_op _ s).symm.trans h)
    obtain ⟨x, s'⟩ := r
    obtain rfl : x = _ := hr
    exact @seg_of_trace_eq _ v _ _ _ (congrArg State.trace hs) .nil
  | setUser x =>
    obtain ⟨hr, hs⟩ : r.1 = _ ∧ _ := hH _ _ _ ((Prog.run_op _ s).symm.trans h)
    obtain ⟨x, s'⟩ := r
    obtain rfl : x = _ := hr
    exact @seg_of_trace_eq _ v _ _ _ hs .nil
  | _ => exact plain_holds hH _ h

theorem decoded_holds (cx : Settings) (recode : α → Except Exc α) (p : Callback σ (Option α))
    {r : Outcome Exc (Option α) × State σ} (h : (decoded cx recode p).run H s = some r) :
    (balance σ v).Holds s r := by
  rw [decoded, Prog.run_bind] at h
  refine Invariant.holds_andThen (fun x hx => callback_holds hH cx p hx)
    (fun a s' t ht => plain_holds hH _ ht) (fun s' t ht => ?_) h
  cases ht
  exact (balance σ v).refl s'

/-- Callbacks called one after the other, nothing noted. -/
theorem callHooks_holds (cx : Settings) (recode : α → Except Exc α) :
    ∀ (hs : List (Callback σ (Option α))) {s : State σ} {r : Outcome Exc (Option α) × State σ},
      (Grammar.callHooks (pure ()) (hs.map (decoded cx recode))).run H s = some r → (balance σ v).Holds s r
  | [], s, r, h => by cases h; exact (balance σ v).refl s
  | p :: hs, s, r, h => by
    rw [List.map_cons, Grammar.callHooks, Prog.run_bind] at h
    refine Invariant.holds_andThen (fun x hx => decoded_holds hH cx recode p hx)
      (fun a s' t ht => ?_) (fun s' t ht => ?_) h
    · cases a with
      | none => exact callHooks_holds cx recode hs ht
      | some a =>
        have hpure : t = (.ok (some a), s') := by
          cases hs <;> cases ht <;> rfl
        subst hpure
        exact (balance σ v).refl s'
    · cases ht; exact (balance σ v).refl s'

theorem hooked_holds (cx : Settings) (recode : α → Except Exc α) (hs : List (Callback σ (Option α)))
    (p : P α) {r : Outcome Exc α × State σ} (h : (hooked cx recode hs p).run H s = some r) :
    (balance σ v).Holds s r := by
  rw [hooked, Prog.run_bind] at h
  refine Invariant.holds_andThen (fun x hx => callHooks_holds hH cx recode hs hx)
    (fun a s' t ht => ?_) (fun s' t ht => ?_) h
  · cases a with
    | none => exact plain_holds hH p ht
    | some a => cases ht; exact (balance σ v).refl s'
  · cases ht; exact (balance σ v).refl s'

/-! ## Calls of block callbacks -/

/-- One bracket, if there is one, among balanced ones. -/
def Around (o : Option (Bracket Pos)) (z : List (Bracket Pos)) : Prop :=
  match o with
  | none => Balanced z
  | some x => ∃ u w, z = u ++ x :: w ∧ Balanced u ∧ Balanced w

omit hH in
theorem Around.append {o : Option (Bracket Pos)} {x y : List (Bracket Pos)} (hx : Around o x)
    (hy : Balanced y) : Around o (x ++ y) := by
  cases o with
  | none => exact Balanced.append hx hy
  | some b =>
    obtain ⟨u, w, rfl, hu, hw⟩ := hx
    exact ⟨u, w ++ y, by simp, hu, hw.append hy⟩

omit hH in
theorem Around.append_left {o : Option (Bracket Pos)} {x y : List (Bracket Pos)} (hx : Balanced x)
    (hy : Around o y) : Around o (x ++ y) := by
  cases o with
  | none => exact Balanced.append hx hy
  | some b =>
    obtain ⟨u, w, rfl, hu, hw⟩ := hy
    exact ⟨x ++ u, w, by simp, hx.append hu, hw⟩

omit hH in
theorem around_toList (o : Option (Bracket Pos)) : Around o o.toList := by
  cases o with
  | none => exact .nil
  | some x => exact ⟨[], [], rfl, .nil, .nil⟩

/-- What is known of the calls of the block callbacks: balanced, but for the target's bracket. -/
def CallsSpec (v : View) (o : Option (Bracket Pos)) (s : State σ) (r : Outcome Exc α × State σ) : Prop :=
  (∀ a, r.1 = .ok a → Seg v (Around o) s r.2) ∧ (r.1 = .fail → Bad v s r.2) ∧ Seg v (fun _ => True) s r.2

omit hH in
theorem callsSpec_ok {o : Option (Bracket Pos)} {a : α} (h : Seg v (Around o) s s') :
    CallsSpec v o s (.ok a, s') :=
  ⟨fun _ _ => h, nofun, h.any⟩

omit hH in
theorem callsSpec_fail {o : Option (Bracket Pos)} (h : Bad v s s') :
    CallsSpec (α := α) v o s (.fail, s') :=
  ⟨nofun, fun _ => h, h.any⟩

omit hH in
theorem callsSpec_error {o : Option (Bracket Pos)} {x : Exc} (h : Seg v (fun _ => True) s s') :
    CallsSpec (α := α) v o s (.error x, s') :=
  ⟨nofun, nofun, h⟩

theorem run_note (e : Note) {t : Outcome Exc Unit × State σ} (h : (note e : F σ Unit).run H s = some t) :
    t = (.ok (), s.note e) :=
  hH (.inr (.note e)) s t ((Prog.run_op _ s).symm.trans h)

/-- One call of a block callback. -/
theorem blockCall_seg (e : Note) {p : F σ α} (hp : ∀ s r, p.run H s = some r → (balance σ v).Holds s r)
    {r : Outcome Exc α × State σ}
    (h : (do note e; p.alt pure (do note .blockHookFailed; .fail) : F σ α).run H s = some r) :
    CallsSpec v (v.bracket e) s r := by
  rw [Prog.run_bind] at h
  obtain ⟨_, s1, h1, h⟩ | ⟨s1, h1, h⟩ | ⟨x, s1, h1, rfl⟩ := Prog.andThen_eq_some h
  · obtain ⟨-, rfl⟩ := Prod.mk.inj (run_note hH e h1)
    have hnote : Seg v (· = (v.bracket e).toList) s (s.note e) := seg_note e
    rw [Prog.run_alt] at h
    obtain ⟨a, s2, h2, h⟩ | ⟨s2, h2, h⟩ | ⟨x, s2, h2, rfl⟩ := Prog.andThen_eq_some h
    · cases h
      have hcall : Seg v Balanced (s.note e) s2 := hp _ _ h2
      exact callsSpec_ok (hnote.trans hcall fun x y hx hy => hx ▸ (around_toList _).append hy)
    · rw [Prog.run_bind] at h
      obtain ⟨_, s3, h3, h⟩ | ⟨s3, h3, h⟩ | ⟨x, s3, h3, rfl⟩ := Prog.andThen_eq_some h
      · cases h
        obtain ⟨-, rfl⟩ := Prod.mk.inj (run_note hH _ h3)
        have hcall : Seg v Balanced (s.note e) s2 := hp _ _ h2
        have hbad : Bad v s2 (s2.note .blockHookFailed) := seg_note_bad rfl
        exact callsSpec_fail ((hnote.trans_any hcall).bad hbad)
      · cases run_note hH _ h3
      · cases run_note hH _ h3
    · have hcall : Seg v (fun _ => True) (s.note e) s2 := hp _ _ h2
      exact callsSpec_error (hnote.trans_any hcall)
  · cases run_note hH e h1
  · cases run_note hH e h1

/-- Where the callback that is looked at stands among the others: `e k` is its call for `some k`. -/
def Target (v : View) (x : Bracket Pos) (e : Nat → Note) (i : Option Nat) : Prop :=
  ∀ k, v.bracket (e k) = if i = some k then some x else none

omit hH in
/-- The target after the first callback. -/
theorem Target.tail {x : Bracket Pos} {e : Nat → Note} {i : Option Nat} (h : Target v x e i) :
    ∃ i', Target v x (fun k => e (k + 1)) i' ∧ (∀ n, (∀ k, i = some k → k < n + 1) → ∀ k, i' = some k → k < n) ∧
      ∀ y z, Around (v.bracket (e 0)) y → Around (i'.map fun _ => x) z → Around (i.map fun _ => x) (y ++ z) := by
  rcases i with _ | _ | i
  · refine ⟨none, fun k => h (k + 1), fun _ _ _ => nofun, fun y z hy hz => ?_⟩
    rw [h 0, if_neg nofun] at hy
    exact Balanced.append hy hz
  · refine ⟨none, fun k => ?_, fun _ _ _ => nofun, fun y z hy hz => ?_⟩
    · rw [h (k + 1), if_neg (by simp), if_neg nofun]
    · rw [h 0, if_pos rfl] at hy
      exact hy.append hz
  · refine ⟨some i, fun k => ?_, fun n hn k hk => ?_, fun y z hy hz => ?_⟩
    · simp only [h (k + 1), Option.some.injEq, Nat.add_right_cancel_iff]
    · cases hk
      have := hn (i + 1) rfl
      omega
    · rw [h 0, if_neg (by simp)] at hy
      exact hz.append_left hy

omit hH in
/-- The calls after the first. -/
theorem CallsSpec.cons {β : Type} {o o1 o2 : Option (Bracket Pos)} {r : Outcome Exc β × State σ}
    (h : Seg v (Around o1) s s') (hr : CallsSpec v o2 s' r)
    (ho : ∀ y z, Around o1 y → Around o2 z → Around o (y ++ z)) : CallsSpec v o s r :=
  ⟨fun a ha => h.trans (hr.1 a ha) ho,
    fun hf => h.bad (hr.2.1 hf),
    h.trans_any hr.2.2⟩

/-- `call_hooks_unit` on block callbacks. -/
theorem callHooksUnit_seg {x : Bracket Pos} : ∀ (l : List (F σ Unit)) {e : Nat → Note} {i : Option Nat}
    {s : State σ} {r : Outcome Exc Unit × State σ},
    (∀ p ∈ l, ∀ s r, p.run H s = some r → (balance σ v).Holds s r) → Target v x e i →
    (∀ k, i = some k → k < l.length) → (callHooksUnit (blockCalls e l)).run H s = some r →
    CallsSpec v (i.map fun _ => x) s r
  | [], e, i, s, r, _, _, hi, h => by
    cases h
    cases i with
    | none => exact callsSpec_ok (seg_of_trace_eq rfl .nil)
    | some k => exact absurd (hi k rfl) (Nat.not_lt_zero k)
  | p :: l, e, i, s, r, hl, he, hi, h => by
    rw [blockCalls, List.mapIdx_cons, callHooksUnit, Prog.run_bind] at h
    obtain ⟨i', he', hi', ho⟩ := he.tail
    have hcall := @blockCall_seg σ Unit v s H hH (e 0) p (hl p (List.mem_cons_self ..))
    obtain ⟨_, s1, h1, h⟩ | ⟨s1, h1, h⟩ | ⟨_, s1, h1, rfl⟩ := Prog.andThen_eq_some h
    · refine CallsSpec.cons ((hcall h1).1 _ rfl) ?_ ho
      exact callHooksUnit_seg l (fun q hq => hl q (List.mem_cons_of_mem _ hq)) he' (hi' _ hi) h
    · cases h
      exact callsSpec_fail ((hcall h1).2.1 rfl)
    · exact callsSpec_error (hcall h1).2.2

/-- `call_hooks` on block callbacks: it is noted where it does not call all. -/
theorem callHooks_seg {x : Bracket Pos} : ∀ (l : List (F σ (Option α))) {e : Nat → Note} {i : Option Nat}
    {s : State σ} {r : Outcome Exc (Option α) × State σ},
    (∀ p ∈ l, ∀ s r, p.run H s = some r → (balance σ v).Holds s r) → Target v x e i →
    (∀ k, i = some k → k < l.length) →
    (Grammar.callHooks (note .blockNextCut) (blockCalls e l)).run H s = some r →
    CallsSpec v (i.map fun _ => x) s r
  | [], e, i, s, r, _, _, hi, h => by
    cases h
    cases i with
    | none => exact callsSpec_ok (seg_of_trace_eq rfl .nil)
    | some k => exact absurd (hi k rfl) (Nat.not_lt_zero k)
  | p :: l, e, i, s, r, hl, he, hi, h => by
    rw [blockCalls, List.mapIdx_cons, Grammar.callHooks, Prog.run_bind] at h
    obtain ⟨i', he', hi', ho⟩ := he.tail
    have hcall := @blockCall_seg σ (Option α) v s H hH (e 0) p (hl p (List.mem_cons_self ..))
    obtain ⟨a, s1, h1, h⟩ | ⟨s1, h1, h⟩ | ⟨_, s1, h1, rfl⟩ := Prog.andThen_eq_some h
    · refine CallsSpec.cons ((hcall h1).1 _ rfl) ?_ ho
      cases a with
      | none => exact callHooks_seg l (fun q hq => hl q (List.mem_cons_of_mem _ hq)) he' (hi' _ hi) h
      | some a =>
        cases l with
        | nil =>
          cases h
          have hnone : i' = none := by
            cases i' with
            | none => rfl
            | some k => exact absurd (hi' 0 hi k rfl) (Nat.not_lt_zero k)
          rw [hnone]
          exact callsSpec_ok (seg_of_trace_eq rfl .nil)
        | cons q l =>
          simp only [List.mapIdx_cons, List.isEmpty_cons, Bool.not_false, if_true] at h
          rw [Prog.run_bind] at h
          obtain ⟨_, s2, h2, h⟩ | ⟨s2, h2, h⟩ | ⟨_, s2, h2, rfl⟩ := Prog.andThen_eq_some h
          · cases h
            obtain ⟨-, rfl⟩ := Prod.mk.inj (run_note hH _ h2)
            exact callsSpec_ok (seg_note_bad rfl)
          · cases run_note hH _ h2
          · cases run_note hH _ h2
    · cases h
      exact callsSpec_fail ((hcall h1).2.1 rfl)
    · exact callsSpec_error (hcall h1).2.2

/-! ## The hooks of a block -/

/-- `on_block_start`: one opening bracket in every view. -/
theorem onBlockStart_seg {cx : Settings} {hooks : Hooks σ} (hv : v.Installed hooks) (b : Pos)
    {r : Outcome Exc Unit × State σ} (h : (onBlockStart cx hooks b).run H s = some r) :
    CallsSpec v (some (.opening b)) s r := by
  have keeps : ∀ p ∈ hooks.onBlock.map (callback cx), ∀ s r, p.run H s = some r → (balance σ v).Holds s r := by
    intro p hp s r h
    obtain ⟨p, -, rfl⟩ := List.mem_map.1 hp
    exact callback_holds hH cx p h
  rw [onBlockStart, Prog.run_bind] at h
  obtain ⟨_, s1, h1, h⟩ | ⟨s1, h1, h⟩ | ⟨_, s1, h1, rfl⟩ := Prog.andThen_eq_some h
  · obtain ⟨-, rfl⟩ := Prod.mk.inj (run_note hH _ h1)
    have hnote : Seg v (Around (v.bracket (.blockStart b))) s (s.note (.blockStart b)) :=
      (seg_note _).mono fun _ hz => hz ▸ around_toList _
    cases v with
    | sites =>
      have ht : Target .sites (.opening b) (Note.blockHook · b) none := fun _ => rfl
      exact CallsSpec.cons hnote (callHooksUnit_seg hH _ keeps ht nofun h) fun _ _ => Around.append
    | calls i j =>
      have ht : Target (.calls i j) (.opening b) (Note.blockHook · b) (some i) := fun k => by
        simp only [View.bracket, Option.some.injEq, eq_comm]
      refine CallsSpec.cons hnote (callHooksUnit_seg hH _ keeps ht (fun k hk => ?_) h) fun _ _ => Around.append_left
      cases hk
      rw [List.length_map]
      exact hv.1
  · cases run_note hH _ h1
  · cases run_note hH _ h1

/-- The `on_block_next` hooks: one closing bracket in every view. -/
theorem onBlockNext_seg {cx : Settings} {hooks : Hooks σ} (hv : v.Installed hooks) (b : Pos) (e : Expr)
    {r : Outcome Exc (Option Expr) × State σ} (h : (onBlockNext cx hooks b e).run H s = some r) :
    CallsSpec v (some (.closing b)) s r := by
  have keeps : ∀ p ∈ hooks.onBlockNext.map (fun h => decoded cx recodeExpr (h e)), ∀ s r,
      p.run H s = some r → (balance σ v).Holds s r := by
    intro p hp s r h
    obtain ⟨p, -, rfl⟩ := List.mem_map.1 hp
    exact decoded_holds hH cx recodeExpr (p e) h
  rw [onBlockNext, Prog.run_bind] at h
  obtain ⟨_, s1, h1, h⟩ | ⟨s1, h1, h⟩ | ⟨_, s1, h1, rfl⟩ := Prog.andThen_eq_some h
  · obtain ⟨-, rfl⟩ := Prod.mk.inj (run_note hH _ h1)
    have hnote : Seg v (Around (v.bracket (.blockNext b))) s (s.note (.blockNext b)) :=
      (seg_note _).mono fun _ hz => hz ▸ around_toList _
    cases v with
    | sites =>
      have ht : Target .sites (.closing b) (Note.blockNextHook · b) none := fun _ => rfl
      exact CallsSpec.cons hnote (callHooks_seg hH _ keeps ht nofun h) fun _ _ => Around.append
    | calls i j =>
      have ht : Target (.calls i j) (.closing b) (Note.blockNextHook · b) (some j) := fun k => by
        simp only [View.bracket, Option.some.injEq, eq_comm]
      refine CallsSpec.cons hnote (callHooks_seg hH _ keeps ht (fun k hk => ?_) h) fun _ _ => Around.append_left
      cases hk
      rw [List.length_map]
      exact hv.2
  · cases run_note hH _ h1
  · cases run_note hH _ h1

/-! ## Blocks -/

theorem peek_ne_fail {r : Outcome Exc (Token × Pos) × State σ}
    (h : peek.run (fun o => H (.inl o)) s = some r) : r.1 ≠ .fail :=
  (hH (.inl .peek) s r ((Prog.run_op (S := sig) _ s).symm.trans h)).2 rfl

/-- `syntax_error` raises, or goes on. -/
theorem syntaxError_ne_fail (cx : Settings) (msg : ErrorMsg) {r : Outcome Exc Unit × State σ}
    (h : (syntaxError cx msg ()).run (fun o => H (.inl o)) s = some r) : r.1 ≠ .fail := by
  unfold syntaxError at h
  split at h
  · rw [Prog.run_bind] at h
    obtain ⟨_, s1, h1, h⟩ | ⟨s1, h1, h⟩ | ⟨_, s1, h1, rfl⟩ := Prog.andThen_eq_some h
    · cases h
      exact nofun
    · exact absurd rfl ((hH (.inl (.addError msg)) s _ ((Prog.run_op (S := sig) _ s).symm.trans h1)).2 rfl)
    · exact nofun
  · cases h
    exact nofun

/-- A statement list ends where a statement fails, so it has no failure of its own. -/
theorem blockWithPos'_ne_fail (cx : Settings) (body : Body) (acc : List Expr) (f : NT) (hf : f.Res = Expr)
    {r : Outcome Exc (List Expr) × State σ}
    (h : (plain (blockWithPos' cx body acc f hf) : F σ _).run H s = some r) : r.1 ≠ .fail := by
  have hnt : ∀ (acc : List Expr) (s : State σ) r,
      (nt (.block body acc)).run (fun o => H (.inl o)) s = some r → r.1 ≠ .fail :=
    fun acc s r h => (hH (.inl (.nt (.block body acc))) s r ((Prog.run_op _ s).symm.trans h)).2 rfl
  have hstream : ∀ (msg : String) (s : State σ) r,
      (handleStreamError cx msg).run (fun o => H (.inl o)) s = some r → r.1 ≠ .fail := by
    intro msg s r h
    rw [handleStreamError, Prog.run_bind] at h
    obtain ⟨_, s1, h1, h⟩ | ⟨s1, h1, h⟩ | ⟨_, s1, h1, rfl⟩ := Prog.andThen_eq_some h
    · exact syntaxError_ne_fail hH cx _ h
    · exact absurd rfl (peek_ne_fail hH h1)
    · rintro ⟨⟩
  rw [plain, Prog.run_inl, blockWithPos', alt, Prog.run_alt] at h
  obtain ⟨a, s1, h1, h⟩ | ⟨s1, h1, h⟩ | ⟨_, s1, h1, rfl⟩ := Prog.andThen_eq_some h
  · cases a with
    | ok e => exact hnt _ s1 r h
    | error x =>
      cases x
      case streamError msg =>
        simp only [Prog.run_bind] at h
        obtain ⟨_, s2, h2, h⟩ | ⟨s2, h2, h⟩ | ⟨_, s2, h2, rfl⟩ := Prog.andThen_eq_some h
        · exact hnt acc s2 r h
        · exact absurd rfl (hstream msg s1 _ h2)
        · rintro ⟨⟩
      all_goals exact hnt acc s1 r h
  · cases h
    rintro ⟨⟩
  · rintro ⟨⟩

/-- What is known where a block or an object has been read, up to its `}`. -/
def OpenSpec (v : View) (b : Pos) (s : State σ) (r : Outcome Exc Expr × State σ) : Prop :=
  match r.1 with
  | .ok (.eBlock _) => Seg v (Around (some (.opening b))) s r.2
  | .ok (.eObjectDecl _) | .fail => Seg v Balanced s r.2
  | .ok _ => False
  | .error _ => Seg v (fun _ => True) s r.2

omit hH in
theorem OpenSpec.prepend {b : Pos} {r : Outcome Exc Expr × State σ} (h : Seg v Balanced s s')
    (hr : OpenSpec v b s' r) : OpenSpec v b s r := by
  unfold OpenSpec at hr ⊢
  split at hr
  · exact h.trans hr fun _ _ => Around.append_left
  · exact h.trans hr fun _ _ => Balanced.append
  · exact h.trans hr fun _ _ => Balanced.append
  · exact hr.elim
  · exact h.trans_any hr

theorem blockOf_seg {cx : Settings} {hooks : Hooks σ} (hv : v.Installed hooks) (b : Pos) {p : P (List Expr)}
    (hp : ∀ (s : State σ) r, (plain p : F σ _).run H s = some r → r.1 ≠ .fail)
    {r : Outcome Exc Expr × State σ} (h : (blockOf cx hooks b p).run H s = some r) : OpenSpec v b s r := by
  rw [blockOf, Prog.run_bind] at h
  obtain ⟨_, s1, h1, h⟩ | ⟨s1, h1, h⟩ | ⟨_, s1, h1, rfl⟩ := Prog.andThen_eq_some h
  · have hstart : Seg v (Around (some (.opening b))) s s1 := (onBlockStart_seg hH hv b h1).1 _ rfl
    rw [Prog.run_bind] at h
    obtain ⟨_, s2, h2, h⟩ | ⟨s2, h2, h⟩ | ⟨_, s2, h2, rfl⟩ := Prog.andThen_eq_some h
    · cases h
      have hbody : Seg v Balanced s1 s2 := plain_holds hH p h2
      exact hstart.trans hbody fun _ _ => Around.append
    · exact absurd rfl (hp s1 _ h2)
    · have hbody : Seg v (fun _ => True) s1 s2 := plain_holds hH p h2
      exact hstart.trans_any hbody
  · cases h
    exact ((onBlockStart_seg hH hv b h1).2.1 rfl).mono fun _ => False.elim
  · exact (onBlockStart_seg hH hv b h1).2.2

/-- An object has no block of its own. -/
theorem objDecl_seg (b : Pos) (name : String) (qs : QuoteStatus) {r : Outcome Exc Expr × State σ}
    (h : (plain (do let e ← secureExpr; parseObjDecl name qs e) : F σ Expr).run H s = some r) :
    OpenSpec v b s r := by
  have hb : (balance σ v).Holds s r := plain_holds hH _ h
  have hobj : ∀ e, r.1 = .ok e → ∃ fl, e = .eObjectDecl fl := by
    intro e he
    rw [plain, Prog.run_inl, Prog.run_bind] at h
    obtain ⟨_, s1, h1, h⟩ | ⟨s1, h1, h⟩ | ⟨_, s1, h1, rfl⟩ := Prog.andThen_eq_some h
    · rw [parseObjDecl, Prog.run_bind] at h
      obtain ⟨_, s2, h2, h⟩ | ⟨s2, h2, h⟩ | ⟨_, s2, h2, rfl⟩ := Prog.andThen_eq_some h
      · cases h
        cases he
        exact ⟨_, rfl⟩
      · cases h; cases he
      · cases he
    · cases h; cases he
    · cases he
  obtain ⟨_ | _ | _, s'⟩ := r
  · obtain ⟨fl, rfl⟩ := hobj _ rfl
    exact hb
  · exact hb
  · exact hb

theorem block2_seg {cx : Settings} {hooks : Hooks σ} (hv : v.Installed hooks) (b : Pos) (name : String)
    (qs : QuoteStatus) (c : Constant) (p : Pos) {r : Outcome Exc Expr × State σ}
    (h : (block2 cx hooks b name qs c p).run H s = some r) : OpenSpec v b s r := by
  rw [block2, Prog.run_alt] at h
  obtain ⟨_, s1, h1, h⟩ | ⟨s1, h1, h⟩ | ⟨_, s1, h1, rfl⟩ := Prog.andThen_eq_some h
  · exact (objDecl_seg hH b name qs h).prepend (plain_holds hH _ h1)
  · refine (blockOf_seg hH hv b (fun s r h => ?_) h).prepend (plain_holds hH _ h1)
    exact blockWithPos'_ne_fail hH cx _ _ _ _ h
  · exact plain_holds hH _ h1

theorem block1_seg {cx : Settings} {hooks : Hooks σ} (hv : v.Installed hooks) (b : Pos)
    {r : Outcome Exc Expr × State σ} (h : (block1 cx hooks b).run H s = some r) : OpenSpec v b s r := by
  have hlist : ∀ (s : State σ) r, (plain (nt (.block .braces [])) : F σ (List Expr)).run H s = some r →
      r.1 ≠ .fail := fun s r h =>
    (hH (.inl (.nt (.block .braces []))) s r ((Prog.run_op _ s).symm.trans ((Prog.run_inl _ s).symm.trans h))).2 rfl
  rw [block1, Prog.run_alt] at h
  obtain ⟨_, s1, h1, h⟩ | ⟨s1, h1, h⟩ | ⟨_, s1, h1, rfl⟩ := Prog.andThen_eq_some h
  · exact (block2_seg hH hv b _ _ _ _ h).prepend (plain_holds hH _ h1)
  · refine OpenSpec.prepend (plain_holds hH _ h1) ?_
    rw [Prog.run_bind] at h
    obtain ⟨t, s2, h2, h⟩ | ⟨s2, h2, h⟩ | ⟨_, s2, h2, rfl⟩ := Prog.andThen_eq_some h
    · refine OpenSpec.prepend (plain_holds hH _ h2) ?_
      split at h
      · rw [Prog.run_bind] at h
        obtain ⟨_, s3, h3, h⟩ | ⟨s3, h3, h⟩ | ⟨_, s3, h3, rfl⟩ := Prog.andThen_eq_some h
        · exact (block2_seg hH hv b _ _ _ _ h).prepend (plain_holds hH _ h3)
        · cases h; exact plain_holds hH _ h3
        · exact plain_holds hH _ h3
      · exact blockOf_seg hH hv b hlist h
    · cases h; exact plain_holds hH _ h2
    · exact plain_holds hH _ h2
  · exact plain_holds hH _ h1

omit hH in
theorem openSpec_any {b : Pos} {r : Outcome Exc Expr × State σ} (h : OpenSpec v b s r) :
    Seg v (fun _ => True) s r.2 := by
  unfold OpenSpec at h
  split at h
  · exact h.any
  · exact h.any
  · exact h.any
  · exact h.elim
  · exact h

/-- After a block its `}` is read, or it is reported that it is not there. -/
theorem closing_ne_fail (cx : Settings) {r : Outcome Exc Unit × State σ}
    (h : (plain (alt (accept .brClose) (fun _ => pure ()) (syntaxError cx (.expected ["\x7d"]) ())) : F σ Unit).run H s
      = some r) : r.1 ≠ .fail := by
  rw [plain, Prog.run_inl, alt, Prog.run_alt] at h
  obtain ⟨_, s1, -, h⟩ | ⟨s1, -, h⟩ | ⟨_, s1, -, rfl⟩ := Prog.andThen_eq_some h
  · cases h
    rintro ⟨⟩
  · exact syntaxError_ne_fail hH cx _ h
  · rintro ⟨⟩

/-- A block from `{` on: the closing bracket is the last of its own, and has the block's label. -/
theorem braces_holds {cx : Settings} {hooks : Hooks σ} (hv : v.Installed hooks) (b : Pos)
    {r : Outcome Exc Expr × State σ} (h : (braces cx hooks b).run H s = some r) : (balance σ v).Holds s r := by
  rw [braces, Prog.run_alt] at h
  obtain ⟨e, s1, h1, h⟩ | ⟨s1, h1, h⟩ | ⟨_, s1, h1, rfl⟩ := Prog.andThen_eq_some h
  · have hopen : OpenSpec v b s (.ok e, s1) := block1_seg hH hv b h1
    rw [Prog.run_bind] at h
    obtain ⟨_, s2, h2, h⟩ | ⟨s2, h2, h⟩ | ⟨_, s2, h2, rfl⟩ := Prog.andThen_eq_some h
    · have hclose : Seg v Balanced s1 s2 := plain_holds hH _ h2
      cases e with
      | eObjectDecl fl =>
        have hobj : Seg v Balanced s s2 := Seg.trans hopen hclose fun _ _ => Balanced.append
        exact Invariant.Holds.trans (I := balance σ v) hobj (plain_holds hH _ h)
      | eBlock el =>
        have hleft : Seg v (Around (some (.opening b))) s s2 := Seg.trans hopen hclose fun _ _ => Around.append
        simp only [Prog.run_bind] at h
        obtain ⟨a, s3, h3, h⟩ | ⟨s3, h3, h⟩ | ⟨_, s3, h3, rfl⟩ := Prog.andThen_eq_some h
        · have hright : Seg v (Around (some (.closing b))) s2 s3 := (onBlockNext_seg hH hv b _ h3).1 _ rfl
          have hboth : Seg v Balanced s s3 := hleft.trans hright fun x y hx hy => by
            obtain ⟨u, w, rfl, hu, hw⟩ := hx
            obtain ⟨u', w', rfl, hu', hw'⟩ := hy
            have := Balanced.around (b := b) hu hw .nil hu' hw'
            simpa using this
          cases a <;> cases h <;> exact hboth
        · cases h
          exact hleft.bad ((onBlockNext_seg hH hv b _ h3).2.1 rfl)
        · exact hleft.trans_any (onBlockNext_seg hH hv b _ h3).2.2
      | _ => exact hopen.elim
    · exact absurd rfl (closing_ne_fail hH cx h2)
    · have hclose : Seg v (fun _ => True) s1 s2 := plain_holds hH _ h2
      exact Seg.trans_any (openSpec_any hopen) hclose
  · exact Invariant.Holds.trans (I := balance σ v) (block1_seg hH hv b h1) (plain_holds hH _ h)
  · exact block1_seg hH hv b h1

/-- `parseBlockInternals` opens a block that nothing closes. -/
theorem parseBlockInternals_holds {cx : Settings} {hooks : Hooks σ} (hv : v.Installed hooks)
    {r : Outcome Exc (List Expr) × State σ}
    (h : (parseBlockInternals cx hooks).run H s = some r) : (balance σ v).Holds s r := by
  rw [parseBlockInternals, Prog.run_bind] at h
  obtain ⟨_, s1, h1, h⟩ | ⟨s1, h1, h⟩ | ⟨_, s1, h1, rfl⟩ := Prog.andThen_eq_some h
  · obtain ⟨-, rfl⟩ := Prod.mk.inj (run_note hH _ h1)
    have hbad : Bad v s (s.note .blockInternals) := seg_note_bad rfl
    refine balance_of_bad hbad ?_
    rw [Prog.run_bind] at h
    refine Invariant.holds_andThen (fun x hx => growth_of_balance (plain_holds hH _ hx))
      (fun t s' r ht => ?_) (fun s' r ht => ?_) h
    · rw [Prog.run_bind] at ht
      refine Invariant.holds_andThen (fun x hx => growth_of_seg (onBlockStart_seg hH hv _ hx).2.2)
        (fun _ s' r ht => growth_of_balance (plain_holds hH _ ht)) (fun s' r ht => ?_) ht
      cases ht
      exact (growth σ v).refl s'
    · cases ht
      exact (growth σ v).refl s'
  · cases run_note hH _ h1
  · cases run_note hH _ h1

/-! ## Runs of the grammar -/

/-- The parsers that ask the mods. -/
theorem hookBody_holds {cx : Settings} {hooks : Hooks σ} (hv : v.Installed hooks) (h : Hooked)
    {r : Outcome Exc h.Res × State σ} (hr : (hookBody cx hooks h).run H s = some r) :
    (balance σ v).Holds s r := by
  cases h with
  | braces p1 => exact braces_holds hH hv p1 hr
  | parseBlockInternals => exact parseBlockInternals_holds hH hv hr
  | _ => exact hooked_holds hH cx _ _ _ hr

/-- The other parsers. -/
theorem body_holds {cx : Settings} {hooks : Hooks σ} (hv : v.Installed hooks) (t : NT)
    {r : Outcome Exc t.Res × State σ} (hr : (body cx (hookBody cx hooks) t).run H s = some r) :
    (balance σ v).Holds s r := by
  cases t with
  | hook h => exact hookBody_holds hH hv h hr
  | _ => exact plain_holds hH _ hr

end

/-- What an operation does, from what those that it calls do. -/
theorem spec_step {cx : Settings} {hooks : Hooks σ} (hv : v.Installed hooks)
    (H : Handler (fullSig σ) Exc (State σ)) (hH : ∀ o s r, H o s = some r → Spec v o s r) :
    ∀ o s r, (grammar cx hooks o).run H s = some r → Spec v o s r := by
  have same : ∀ {s s' : State σ}, s'.trace = s.trace → Seg v Balanced s s' := fun h => seg_of_trace_eq h .nil
  rintro (o | o) s r h
  · cases o with
    | nt t =>
      refine ⟨body_holds hH hv t h, fun ht => ?_⟩
      cases t with
      | block b acc => exact blockWithPos'_ne_fail hH cx b acc _ rfl h
      | _ => cases ht
    | recover t catches =>
      refine ⟨?_, nofun⟩
      obtain ⟨⟨x, s1⟩, h1, rfl⟩ := Option.map_eq_some_iff.1 h
      have ht := (hH (.inl (.nt t)) s _ h1).1
      cases x with
      | ok a => exact ht
      | fail => exact ht
      | error e =>
        have ht : Seg v (fun _ => True) s s1 := ht
        rw [afterTry]
        split
        · exact ht.bad (seg_note_bad rfl)
        · exact ht
    | handleXmlLiteral p1 =>
      cases h
      refine ⟨?_, fun _ => ?_⟩
      · rw [handleXml]
        split
        · exact same rfl
        · exact (same rfl).any
      · rw [handleXml]
        split <;> exact nofun
    | noteBinop op e1 e2 =>
      cases h
      exact ⟨⟨[.binop op e1 e2], rfl, fun _ => by cases v <;> exact .nil⟩, nofun⟩
    | _ => cases h; exact ⟨same rfl, nofun⟩
  · cases o with
    | note e => cases h; rfl
    | getUser => cases h; exact ⟨rfl, rfl⟩
    | setUser x => cases h; exact ⟨rfl, rfl⟩

/-- The calls between two states are balanced in every view, and leave a stack as it was. -/
def HooksBalanced (hooks : Hooks σ) (w : List Note) : Prop :=
  ∀ v : View, v.Installed hooks → Balanced (w.filterMap v.bracket) ∧
    ∀ {γ : Type} (push : Pos → γ) (st : List γ), (w.filterMap v.bracket).foldl (stackStep push) st = st

section

variable {hooks : Hooks Unit} (hx : hooks.onExpr = []) {s : State Unit}
  (h : (s.peek plainSettings).1 = .brClose)
include hx h

theorem parseBlockElt_brClose :
    parse plainSettings hooks (.parseBlockElt .braces) s = some (.fail, s) := by
  have hexpr : parse plainSettings hooks (.topExpr .braces) s = some (.fail, s) := by
    rw [parse_hook, hookBody, hx, List.map_nil]
    refine (fullRuns_hooked_nil s _ _).trans ?_
    refine (Prog.run_op _ s).trans ((parse_plain s rfl).trans ((runs_expr'_primary (by simp [h])).trans ?_))
    simp [primary, h]
  rw [parse_plain s rfl]
  simp [parseBlockElt, parseBlockVar, h]
  have hnt := (@runs_nt Unit plainSettings hooks s (.topExpr .braces)).trans hexpr
  exact congrArg (Prog.andThen · _ _) hnt

theorem parse_block_brClose : parse plainSettings hooks (.block .braces []) s = some (.ok [], s) := by
  rw [parse_plain s rfl, block, blockWithPos', runs_alt]
  have := @runs_recover Unit plainSettings hooks s (.parseBlockElt .braces)
    fun e => plainSettings.inDisplayFile && (isStreamError e || blockWithPos'.isError e)
  rw [parseBlockElt_brClose hx h] at this
  exact congrArg (Prog.andThen · _ _) this

theorem runs_block_brClose :
    runs plainSettings hooks (nt (.block .braces []) : P (List Expr)) s = some (.ok [], s) :=
  (runs_nt s (.block .braces [])).trans (parse_block_brClose hx h)

end

/-- Without block callbacks `on_block_start` is only noted. -/
theorem fullRuns_onBlockStart {cx : Settings} {hooks : Hooks σ} (hx : hooks.onBlock = []) (b : Pos)
    (s : State σ) : fullRuns cx hooks (onBlockStart cx hooks b) s = some (.ok (), s.note (.blockStart b)) := by
  rw [onBlockStart, hx, fullRuns_bind, fullRuns_note]
  rfl

/-- `{ }` is a block whose hooks are called in turn. -/
theorem parse_braces_brClose {s : State Unit} {p : Pos}
    (hs : s.toks = [(.brOpen, nullPos), (.brClose, p)]) :
    parse plainSettings noMods .expr s =
      some (.ok (.eBlock []), (((s.junk plainSettings).note (.blockStart nullPos)).junk plainSettings).note
        (.blockNext nullPos)) := by
  have hp : s.peek plainSettings = (.brOpen, nullPos) := peek_cons hs
  have hclose : ∀ e, (State.note (s.junk plainSettings) e).peek plainSettings = (.brClose, p) :=
    fun e => peek_cons (congrArg List.tail hs)
  have hstart : fullRuns plainSettings (noMods : Hooks Unit) (onBlockStart plainSettings noMods nullPos)
      (s.junk plainSettings) = _ := fullRuns_onBlockStart rfl nullPos _
  have hblock := @runs_block_brClose noMods rfl _ (congrArg Prod.fst (hclose (.blockStart nullPos)))
  have hopen : fullRuns plainSettings noMods (block1 plainSettings noMods nullPos) (s.junk plainSettings) =
      some (.ok (.eBlock []), (s.junk plainSettings).note (.blockStart nullPos)) := by
    have hpeek : (s.junk plainSettings).peek plainSettings = (.brClose, p) := peek_cons (congrArg List.tail hs)
    have hident : runs plainSettings (noMods : Hooks Unit) dollarIdent (s.junk plainSettings) =
        some (.fail, s.junk plainSettings) := by simp [dollarIdent, hpeek]
    simp only [block1, blockOf, fullRuns_alt, fullRuns_plain, hident, Prog.andThen_fail, fullRuns_bind, runs_peek,
      Prog.andThen_ok, hpeek, hstart, hblock]
    rfl
  rw [parse_expr_primary rfl (by simp [hp])]
  simp only [primary, runs_bind, runs_peek, Prog.andThen_ok, hp, runs_junk]
  refine (runs_nt _ _).trans ?_
  rw [parse_hook, hookBody, braces, fullRuns_alt, hopen, Prog.andThen_ok]
  simp only [fullRuns_bind, fullRuns_plain, runs_alt, runs_accept, hclose, if_true, Prog.andThen_ok, runs_pure,
    onBlockNext, fullRuns_note]
  rfl

/-- A mod that reads the statements of a block after an expression, as an argument for it. -/
def trailingBlock : Hooks Unit :=
  { noMods with
    onExprNext := [fun e _ => do
      match ← TokenStream.peek with
      | (.brOpen, _) => do
        TokenStream.consume
        let el ← TokenStream.parseBlockInternals
        TokenStream.consume
        pure (some (.eCall e [.eBlock el]))
      | _ => pure none] }

/-- An empty block is opened, and not closed. -/
theorem parse_parseBlockInternals_brClose {s : State Unit} (h : (s.peek plainSettings).1 = .brClose) :
    parse plainSettings trailingBlock .parseBlockInternals s =
      some (.ok [], (s.note .blockInternals).note (.blockStart s.last.2)) := by
  rw [parse_hook, hookBody, parseBlockInternals]
  simp only [fullRuns_bind, fullRuns_note, @fullRuns_onBlockStart _ _ trailingBlock rfl, fullRuns_plain,
    runs_lastToken, Prog.andThen_ok]
  exact runs_block_brClose rfl h

end EvilHaxe.Evil
