/-
The blocks that a call of `next_token` leaves open while a display request is served. The call takes the
steps of the machine of the directives, with one open block for each group of dead code that is open; so
it leaves a block open exactly when the machine is left inside dead code.
-/
import EvilHaxe.ParserEntry.Directives
import EvilHaxe.ParserEntry.DeadCode
import EvilHaxe.Lib.LeastUpper

namespace EvilHaxe.ParserEntry

open EvilHaxe.Syntax Lib ConditionHandler

variable {cx : Context}

/-! ## Partial correctness -/

/-- A result satisfies `Q`, or its exception leaves a state in `E`. -/
def Result.Meets {α : Type} (r : Result α) (Q : α → State → Prop) (E : State → Prop) : Prop :=
  match r with
  | none => True
  | some (.ok (a, s)) => Q a s
  | some (.error (_, s)) => E s

section

variable {α β : Type} {m : M α} {f : α → M β} {r : Result α} {Q Q' : α → State → Prop} {R : β → State → Prop}
  {E E' : State → Prop} {s : State}

theorem Result.Meets.mono (h : r.Meets Q E) (hQ : ∀ a s, Q a s → Q' a s) (hE : ∀ s, E s → E' s) : r.Meets Q' E' := by
  rcases r with _ | ⟨x, s⟩ | ⟨a, s⟩
  · trivial
  · exact hE s h
  · exact hQ a s h

theorem meets_bind (hm : Result.Meets (m s) Q E) (hf : ∀ a s', Q a s' → Result.Meets (f a s') R E) :
    Result.Meets ((m >>= f) s) R E := by
  rw [bind_apply]
  rcases h : m s with _ | ⟨x, s'⟩ | ⟨a, s'⟩
  · trivial
  · rw [h] at hm
    exact hm
  · rw [h] at hm
    exact hf a s' hm

/-- From the states of `P`, the program has results that satisfy `Q`. -/
def Keeps (P : State → Prop) (f : M α) (Q : α → State → Prop) (E : State → Prop) : Prop :=
  ∀ s, P s → Result.Meets (f s) Q E

theorem ofResults_keeps (P : State → Prop) (Q : α → State → Prop) (E : State → Prop) :
    OfResults (fun (f : M α) s => f s) fun f => Keeps P f Q E := by
  refine ⟨fun s r => P s → Result.Meets (some r) Q E, fun f => ?_⟩
  constructor
  · intro h s r hr hs
    rw [← hr]
    exact h s hs
  · intro h s hs
    cases hr : f s with
    | none => trivial
    | some r => exact h s r hr hs

end

/-! ## The stacks -/

/-- A condition handler with `k` groups open, and maybe others left by exceptions. -/
structure CondsOk (k : Nat) (h : ConditionHandler) : Prop where
  groups : k ≤ h.depths.length
  positive : ∀ d ∈ h.depths, 0 < d
  total : h.depths.sum = h.conditionalStack.length

section

variable {k : Nat} {h : ConditionHandler}

theorem CondsOk.mono {j : Nat} (hk : CondsOk k h) (hj : j ≤ k) :
    CondsOk j h := ⟨Nat.le_trans hj hk.groups, hk.positive, hk.total⟩

theorem condsOk_init : CondsOk 0 .init := ⟨Nat.le_refl 0, List.forall_mem_nil _, rfl⟩

theorem CondsOk.condIf (hk : CondsOk k h) (e : Expr) : CondsOk (k + 1) (h.condIf e) := by
  constructor
  · exact Nat.succ_le_succ hk.groups
  · exact List.forall_mem_cons.2 ⟨Nat.one_pos, hk.positive⟩
  · show (1 :: h.depths).sum = (e :: h.conditionalStack).length
    rw [List.sum_cons, hk.total, List.length_cons, Nat.add_comm]

/-- The stack of an open group. -/
theorem CondsOk.cons (hk : CondsOk (k + 1) h) :
    ∃ ex e el d ds, h = ⟨ex, e :: el, (d + 1) :: ds⟩ ∧ d + ds.sum = el.length := by
  obtain ⟨ex, st, ds⟩ := h
  obtain ⟨hg, hp, ht⟩ := hk
  cases ds with
  | nil => cases hg
  | cons d ds =>
    obtain ⟨d, rfl⟩ : ∃ n, d = n + 1 := Nat.exists_eq_succ_of_ne_zero (Nat.ne_of_gt (hp d List.mem_cons_self))
    cases st with
    | nil =>
      simp only [List.sum_cons, List.length_nil] at ht
      omega
    | cons e el =>
      refine ⟨ex, e, el, d, ds, rfl, ?_⟩
      simp only [List.sum_cons, List.length_cons] at ht
      omega

theorem condEnd_loop_ok : ∀ (d : Nat) (el : List Expr), d ≤ el.length → ∃ cs,
  condEnd.loop d el = .ok cs ∧ cs.length = el.length - d
  | 0, el, _ => ⟨el, rfl, rfl⟩
  | d + 1, [], hd => by cases hd
  | d + 1, _ :: el, hd => by
    obtain ⟨cs, h, hcs⟩ := condEnd_loop_ok d el (Nat.le_of_succ_le_succ hd)
    exact ⟨cs, h, by rw [hcs, List.length_cons, Nat.add_sub_add_right]⟩

theorem CondsOk.condEnd (hk : CondsOk (k + 1) h) : ∃ h', h.condEnd = .ok h' ∧ CondsOk k h' := by
  obtain ⟨ex, e, el, d, ds, rfl, ht⟩ := hk.cons
  obtain ⟨cs, hcs, hlen⟩ := condEnd_loop_ok d el (by omega)
  refine ⟨⟨ex, cs, ds⟩, ?_, Nat.le_of_succ_le_succ hk.groups, (List.forall_mem_cons.1 hk.positive).2, ?_⟩
  · simp only [ConditionHandler.condEnd, condEnd.loop, hcs, bind, Except.bind]
  · show ds.sum = cs.length
    omega

theorem CondsOk.condElse (hk : CondsOk (k + 1) h) : ∃ h', h.condElse = .ok h' ∧ CondsOk (k + 1) h' := by
  obtain ⟨ex, e, el, d, ds, rfl, -⟩ := hk.cons
  exact ⟨_, rfl, hk.groups, hk.positive, hk.total⟩

theorem CondsOk.condElseif (hk : CondsOk (k + 1) h) (e : Expr) :
    ∃ h', h.condElseif e = .ok h' ∧ CondsOk (k + 1) h' := by
  obtain ⟨ex, e', el, d, ds, rfl, ht⟩ := hk.cons
  refine ⟨_, rfl, hk.groups, ?_, ?_⟩
  · exact List.forall_mem_cons.2 ⟨Nat.succ_pos _, (List.forall_mem_cons.1 hk.positive).2⟩
  · show ((d + 1 + 1) :: ds).sum = (e :: negate e' :: el).length
    simp only [List.sum_cons, List.length_cons]
    omega

end

/-! ## States -/

def State.input (s : State) : Input := ⟨s.sraw, s.code⟩

/-- What is open in a state: `k` groups at least, `g` of them live, and `n` blocks above those of `base`. -/
structure Tally (base : List Block) (k g n : Nat) (s : State) : Prop where
  conds : CondsOk k s.conds
  mstack : s.mstack.length = g
  blocks : ∃ bs : List Block, bs.length = n ∧ s.dbc.currentBlock = bs ++ base

theorem Tally.mono {base : List Block} {k j g n : Nat} {s : State} (h : Tally base k g n s) (hj : j ≤ k) :
    Tally base j g n s :=
  ⟨h.conds.mono hj, h.mstack, h.blocks⟩

/-- The same, for an input. -/
def Tallied (base : List Block) (k g n : Nat) (i : Input) (s : State) : Prop := Tally base k g n s ∧ s.input = i

section

variable {base : List Block} {k g n : Nat} {i : Input} {s : State} {E : State → Prop}

theorem lexerToken_meets (h : Tallied base k g n i s) :
    Result.Meets (lexerToken cx s) (fun tk s' => tk = (i.next cx).1 ∧ Tallied base k g n (i.next cx).2 s') E := by
  obtain ⟨⟨hc, hm, hb⟩, rfl⟩ := h
  obtain ⟨code, ms, conds, dbc, doc, er, sraw⟩ := s
  cases code with
  | nil => exact ⟨rfl, ⟨hc, hm, hb⟩, rfl⟩
  | cons t ts => exact ⟨rfl, ⟨hc, hm, hb⟩, rfl⟩

theorem condition_meets (h : Tallied base k g n i s) :
    Result.Meets (condition cx s) (fun e s' => ∃ i', i.cond cx = some (e.1, i') ∧ Tallied base k g n i' s')
      (fun s' => i.cond cx = none ∧ Tally base k g n s') := by
  obtain ⟨⟨hc, hm, hb⟩, rfl⟩ := h
  unfold condition Input.cond State.input
  cases hp : parseMacroCond cx (s.sraw ++ s.code) with
  | error x => exact ⟨rfl, hc, hm, hb⟩
  | ok r =>
    obtain ⟨⟨e, pe⟩, errors, ts⟩ := r
    refine ⟨_, rfl, ⟨hc, hm, hb⟩, ?_⟩
    simp only [State.leave, State.input, Nat.zero_max]

theorem withConds_meets {f : ConditionHandler → Except Exc ConditionHandler} {j : Nat}
    (hf : ∀ h, CondsOk k h → ∃ h', f h = .ok h' ∧ CondsOk j h') (h : Tallied base k g n i s) :
    Result.Meets (withConds f s) (fun _ s' => Tallied base j g n i s') E := by
  obtain ⟨⟨hc, hm, hb⟩, rfl⟩ := h
  obtain ⟨h', hf', hc'⟩ := hf s.conds hc
  unfold withConds
  rw [hf']
  exact ⟨⟨hc', hm, hb⟩, rfl⟩

theorem condIf_meets (e : Expr) (h : Tallied base k g n i s) :
    Result.Meets (condIf e s) (fun _ s' => Tallied base (k + 1) g n i s') E :=
  withConds_meets (fun _ hk => ⟨_, rfl, hk.condIf e⟩) h

theorem condElseif_meets (e : Expr) (h : Tallied base (k + 1) g n i s) :
    Result.Meets (condElseif e s) (fun _ s' => Tallied base (k + 1) g n i s') E :=
  withConds_meets (fun _ hk => hk.condElseif e) h

theorem condElse_meets (h : Tallied base (k + 1) g n i s) :
    Result.Meets (condElse s) (fun _ s' => Tallied base (k + 1) g n i s') E :=
  withConds_meets (fun _ hk => hk.condElse) h

theorem condEnd_meets (h : Tallied base (k + 1) g n i s) :
    Result.Meets (condEnd s) (fun _ s' => Tallied base k g n i s') E :=
  withConds_meets (fun _ hk => hk.condEnd) h

theorem openDeadBlock_meets (p : Pos) (h : Tallied base k g n i s) :
    Result.Meets (openDeadBlock p s) (fun _ s' => Tallied base k g (n + 1) i s') E := by
  obtain ⟨⟨hc, hm, bs, hn, hb⟩, rfl⟩ := h
  refine ⟨⟨hc, hm, (⟨p.pmax, p.pmax⟩, s.conds.getCurrentCondition) :: bs, congrArg Nat.succ hn, ?_⟩, rfl⟩
  show _ :: s.dbc.currentBlock = _
  rw [hb]
  rfl

theorem closeDeadBlock_meets (p : Pos) (h : Tallied base k g (n + 1) i s) :
    Result.Meets (closeDeadBlock p s) (fun _ s' => Tallied base k g n i s') E := by
  obtain ⟨⟨hc, hm, bs, hn, hb⟩, rfl⟩ := h
  cases bs with
  | nil => cases hn
  | cons b bs =>
    unfold closeDeadBlock
    rw [hb]
    exact ⟨⟨hc, hm, bs, Nat.succ.inj hn, rfl⟩, rfl⟩

theorem getMstack_meets (h : Tallied base k g n i s) :
    Result.Meets (getMstack s) (fun l s' => l.length = g ∧ Tallied base k g n i s') E :=
  ⟨h.1.mstack, h⟩

theorem evalCond_meets (e : Expr) (h : Tallied base k g n i s) :
    Result.Meets (evalCond cx e s) (fun b s' => truth cx.Fl cx.env e = .ok b ∧ Tallied base k g n i s')
      (fun s' => (∃ x, truth cx.Fl cx.env e = .error x) ∧ Tallied base k g n i s') := by
  unfold evalCond truth
  cases eval cx.Fl cx.env e with
  | error x => exact ⟨⟨x, rfl⟩, h⟩
  | ok v => exact ⟨rfl, h⟩

theorem setMstack_meets (l : List Pos) (h : Tallied base k g n i s) :
    Result.Meets (setMstack l s) (fun _ s' => Tallied base k l.length n i s') E := by
  obtain ⟨⟨hc, -, hb⟩, rfl⟩ := h
  exact ⟨⟨hc, rfl, hb⟩, rfl⟩

end

/-! ## `skip_tokens_loop` -/

/-- The state is the one that the mode tells. -/
def At (base : List Block) (m : Mode) (i : Input) (s : State) : Prop :=
  Tallied base (m.groups + m.dead.length) m.groups m.dead.length i s

/-- A call was left inside dead code: a block above those of `base` is open. -/
structure Left (cx : Context) (base : List Block) (m : Mode) (t : TokPos) (i : Input) (s : State) : Prop where
  conds : CondsOk s.mstack.length s.conds
  ends : Ends cx .left m t i
  blocks : ∃ b bs, s.dbc.currentBlock = b :: (bs ++ base)

/-- A call has ended outside of dead code. -/
structure Stopped (cx : Context) (base : List Block) (m : Mode) (t : TokPos) (i : Input) (s : State) : Prop where
  conds : CondsOk s.mstack.length s.conds
  ends : Ends cx .stop m t i
  blocks : s.dbc.currentBlock = base

def Ended (cx : Context) (base : List Block) (m : Mode) (t : TokPos) (i : Input) (s : State) : Prop :=
  Stopped cx base m t i s ∨ Left cx base m t i s

/-- However the call ends from the mode `m'` on, it ends from `m`. -/
def Leads (cx : Context) (m : Mode) (t : TokPos) (i : Input) (m' : Mode) (t' : TokPos) (i' : Input) : Prop :=
  ∀ n, Ends cx n m' t' i' → Ends cx n m t i

/-- The state is that of the mode `m'`, before which the call has gone from `m` to the token `t'`. -/
structure Gone (cx : Context) (base : List Block) (m : Mode) (t : TokPos) (i : Input) (m' : Mode) (t' : TokPos)
    (s : State) : Prop where
  state : At base m' s.input s
  leads : Leads cx m t i m' t' s.input

/-- A skip has ended: in a mode of `next`, or inside dead code at the end of the file. -/
def Skipped (cx : Context) (base : List Block) (m : Mode) (t : TokPos) (i : Input) (next : Mode → Prop) (t' : TokPos)
    (s : State) : Prop :=
  (∃ m', next m' ∧ Gone cx base m t i m' t' s) ∨ t'.1 = .eof ∧ Left cx base m t i s

/-- The modes after a group of dead code. -/
def Mode.After (m : Mode) (test : Bool) (m' : Mode) : Prop :=
  m' = m.close ∨ test = true ∧ m' = { m.close with groups := m.groups + 1 }

section

variable {base : List Block} {m m' : Mode} {t t' : TokPos} {i i' : Input} {s : State}

theorem At.condsOk (h : At base m i s) : CondsOk s.mstack.length s.conds :=
  h.1.conds.mono (by rw [h.1.mstack]; exact Nat.le_add_right _ _)

theorem Leads.step (hstep : m.step cx t i = .goOn m' i') : Leads cx m t i m' (i'.next cx).1 (i'.next cx).2 :=
  fun _ hn => .later hstep hn

theorem Left.of_leads (hl : Leads cx m t i m' t' i') (h : Left cx base m' t' i' s) : Left cx base m t i s :=
  ⟨h.conds, hl _ h.ends, h.blocks⟩

theorem Left.congr {s' : State} (h : Left cx base m t i s) (hc : s'.conds = s.conds) (hms : s'.mstack = s.mstack)
    (hdb : s'.dbc = s.dbc) : Left cx base m t i s' := by
  refine ⟨?_, h.ends, ?_⟩
  · rw [hc, hms]
    exact h.conds
  · rw [hdb]
    exact h.blocks

theorem Ended.of_leads (hl : Leads cx m t i m' t' i') (h : Ended cx base m' t' i' s) : Ended cx base m t i s := by
  rcases h with h | h
  · exact .inl ⟨h.conds, hl _ h.ends, h.blocks⟩
  · exact .inr (.of_leads hl h)

theorem Gone.of_leads {m1 : Mode} {t1 : TokPos} (hl : Leads cx m t i m' t' i') (h : Gone cx base m' t' i' m1 t1 s) :
    Gone cx base m t i m1 t1 s :=
  ⟨h.state, fun n hn => hl n (h.leads n hn)⟩

theorem Skipped.imp {next next' : Mode → Prop} (h : Skipped cx base m t i next t' s) (hnext : ∀ m, next m → next' m) :
    Skipped cx base m t i next' t' s := by
  rcases h with ⟨m1, hm1, h⟩ | h
  · exact .inl ⟨m1, hnext m1 hm1, h⟩
  · exact .inr h

theorem Skipped.of_leads {next : Mode → Prop} {t1 : TokPos} (hl : Leads cx m t i m' t' i')
    (h : Skipped cx base m' t' i' next t1 s) : Skipped cx base m t i next t1 s := by
  rcases h with ⟨m1, hm1, h⟩ | ⟨he, h⟩
  · exact .inl ⟨m1, hm1, .of_leads hl h⟩
  · exact .inr ⟨he, .of_leads hl h⟩

/-- A step to a mode that the state is in, before its next token. -/
theorem Gone.of_step (h : At base m' (i'.next cx).2 s) (hstep : m.step cx t i = .goOn m' i') :
    Gone cx base m t i m' (i'.next cx).1 s := by
  obtain ⟨h, hi⟩ := h
  exact ⟨⟨h, rfl⟩, fun n hn => .later hstep (hi ▸ hn)⟩

theorem At.ofDead {test : Bool} {outer : List Bool} (h : At base m i s) (hm : m.dead = test :: outer) :
    Tallied base (m.groups + outer.length + 1) m.groups (outer.length + 1) i s := by
  unfold At at h
  rw [hm] at h
  exact h

theorem At.toDead {test : Bool} {outer : List Bool} (hm : m.dead = test :: outer)
    (h : Tallied base (m.groups + outer.length + 1) m.groups (outer.length + 1) i s) : At base m i s := by
  unfold At
  rw [hm]
  exact h

theorem At.close {test : Bool} {outer : List Bool} (hm : m.dead = test :: outer)
    (h : Tallied base (m.groups + outer.length) m.groups outer.length i s) : At base m.close i s := by
  unfold At Mode.close
  rw [hm]
  exact h

/-- An exception in the mode `m'`. -/
theorem Ended.of_raise (h : Tally base (m'.groups + m'.dead.length) m'.groups m'.dead.length s)
    (hstep : m.step cx t i = m'.raise) :
    Ended cx base m t i s := by
  have hconds : CondsOk s.mstack.length s.conds := At.condsOk (i := s.input) ⟨h, rfl⟩
  obtain ⟨bs, hlen, hb⟩ := h.blocks
  unfold Mode.raise Mode.isDead at hstep
  cases hd : m'.dead with
  | nil =>
    rw [hd] at hstep hlen
    obtain rfl := List.eq_nil_of_length_eq_zero hlen
    exact .inl ⟨hconds, .here hstep, hb⟩
  | cons test outer =>
    rw [hd] at hstep hlen
    cases bs with
    | nil => cases hlen
    | cons b bs => exact .inr ⟨hconds, .here hstep, b, bs, hb⟩

end

/-- What `skip_tokens_loop` does at the end of the file: the error is recorded. -/
def AtEof (f : TokPos → M TokPos) : Prop :=
  ∀ (t : TokPos) (s0 : State), t.1 = .eof → Keeps (· = s0) (f t)
    (fun t' s => t' = t ∧ s.conds = s0.conds ∧ s.mstack = s0.mstack ∧ s.dbc = s0.dbc) (fun _ => False)

/-- What `skip_tokens_loop` does in dead code. -/
def SkipsDead (cx : Context) (base : List Block) (test : Bool) (f : TokPos → M TokPos) : Prop :=
  ∀ (t : TokPos) (m : Mode) (outer : List Bool) (i : Input), m.dead = test :: outer →
    Keeps (At base m i) (f t) (Skipped cx base m t i (m.After test)) (Ended cx base m t i)

/-- What `enter_macro` does, from a token whose step is to read a condition in the mode `m'`. -/
def Enters (cx : Context) (base : List Block) (isIf : Bool) (f : M TokPos) : Prop :=
  ∀ (m m' : Mode) (t : TokPos) (i i' : Input), m.step cx t i = m'.enter cx i' →
    Keeps (Tallied base (m'.groups + m'.dead.length + if isIf then 0 else 1) m'.groups m'.dead.length i') f
      (Skipped cx base m t i fun m1 => m1 = m' ∨ m1 = { m' with groups := m'.groups + 1 }) (Ended cx base m t i)

theorem ofResults_enters (base : List Block) (isIf : Bool) :
    OfResults (fun (f : M TokPos) s => f s) (Enters cx base isIf) := by
  unfold Enters
  iterate 6 refine .forall fun _ => ?_
  exact ofResults_keeps _ _ _

theorem ofResults_atEof : OfResults (fun (f : TokPos → M TokPos) (x : TokPos × State) => f x.1 x.2) AtEof := by
  refine .forall fun t => ?_
  iterate 2 refine .forall fun _ => ?_
  exact (ofResults_keeps _ _ _).comap (fun f : TokPos → M TokPos => f t) (t, ·) fun _ _ => rfl

theorem ofResults_skips (base : List Block) (test : Bool) :
    OfResults (fun (f : TokPos → M TokPos) (x : TokPos × State) => f x.1 x.2) (SkipsDead cx base test) := by
  refine .forall fun t => ?_
  iterate 4 refine .forall fun _ => ?_
  exact (ofResults_keeps _ _ _).comap (fun f : TokPos → M TokPos => f t) (t, ·) fun _ _ => rfl

/-- The rest of `enter_macro`, once its condition is on the stack. -/
theorem enter_branch {base : List Block} {loop : TokPos → M TokPos} (ih : SkipsDead cx base true loop) {m m' : Mode}
    {t : TokPos} {i i' i1 : Input} {e : Expr} (hstep : m.step cx t i = m'.enter cx i') (hi1 : i'.cond cx = some (e, i1))
    (p pe : Pos) {s : State}
    (h : Tallied base (m'.groups + m'.dead.length + 1) m'.groups m'.dead.length i1 s) :
    Result.Meets ((do
      let tk ← lexerToken cx
      if ← evalCond cx e then
        setMstack (p :: (← getMstack))
        pure tk
      else
        openDeadBlock pe
        loop tk : M TokPos) s)
      (Skipped cx base m t i fun m1 => m1 = m' ∨ m1 = { m' with groups := m'.groups + 1 }) (Ended cx base m t i) := by
  unfold Mode.enter at hstep
  simp only [hi1] at hstep
  refine meets_bind (lexerToken_meets h) ?_
  rintro tk s1 ⟨rfl, h1⟩
  refine meets_bind ((evalCond_meets e h1).mono (fun _ _ h => h) ?_) ?_
  · rintro s2 ⟨⟨x, hx⟩, h2⟩
    rw [hx] at hstep
    exact .of_raise (h2.1.mono (Nat.le_succ _)) hstep
  · rintro b s2 ⟨hb, h2⟩
    rw [hb] at hstep
    cases b with
    | true =>
      refine meets_bind (getMstack_meets h2) ?_
      rintro l s3 ⟨hl, h3⟩
      refine meets_bind (setMstack_meets (p :: l) h3) ?_
      rintro _ s4 h4
      refine .inl ⟨_, .inr rfl, .of_step ?_ hstep⟩
      rw [List.length_cons, hl] at h4
      unfold At
      rw [Nat.add_right_comm]
      exact h4
    | false =>
      refine meets_bind (openDeadBlock_meets pe h2) ?_
      rintro _ s3 h3
      refine (ih _ { m' with dead := true :: m'.dead } m'.dead _ rfl s3 h3).mono ?_ ?_
      · rintro tk s4 h4
        refine (Skipped.of_leads (.step hstep) h4).imp ?_
        rintro m1 (rfl | ⟨-, rfl⟩)
        · exact .inl rfl
        · exact .inr rfl
      · exact fun s4 h4 => .of_leads (.step hstep) h4

theorem enter_meets {base : List Block} {loop : TokPos → M TokPos} (ih : SkipsDead cx base true loop) (isIf : Bool)
    (p : Pos) :
    Enters cx base isIf (do
      let (e, pe) ← condition cx
      if isIf then condIf e else condElseif e
      let tk ← lexerToken cx
      if ← evalCond cx e then
        setMstack (p :: (← getMstack))
        pure tk
      else
        openDeadBlock pe
        loop tk) := by
  intro m m' t i i' hstep s h
  refine meets_bind ((condition_meets h).mono (fun _ _ h => h) ?_) ?_
  · rintro s1 ⟨hi, h1⟩
    refine .of_raise (h1.mono (Nat.le_add_right _ _)) (hstep.trans ?_)
    unfold Mode.enter
    rw [hi]
  · rintro ⟨e, pe⟩ s1 ⟨i1, hi1, h1⟩
    cases isIf with
    | true =>
      refine meets_bind (condIf_meets e h1) ?_
      rintro _ s2 h2
      exact enter_branch ih hstep hi1 p pe h2
    | false =>
      refine meets_bind (condElseif_meets e h1) ?_
      rintro _ s2 h2
      exact enter_branch ih hstep hi1 p pe h2

/-- Dead code goes on after a token. -/
theorem skip_next {base : List Block} {test : Bool} {loop : TokPos → M TokPos} (ih : SkipsDead cx base test loop)
    {m : Mode}
    {outer : List Bool} (hm : m.dead = test :: outer) {t : TokPos} {i i1 : Input}
    (hstep : m.step cx t i = .goOn m i1) {s : State} (h : At base m i1 s) :
    Result.Meets ((do loop (← lexerToken cx) : M TokPos) s) (Skipped cx base m t i (m.After test)) (Ended cx base m t
      i) := by
  refine meets_bind (lexerToken_meets h) ?_
  rintro tk s1 ⟨rfl, h1⟩
  refine (ih _ m outer _ hm s1 h1).mono ?_ ?_
  · exact fun _ _ h2 => .of_leads (.step hstep) h2
  · exact fun _ h2 => .of_leads (.step hstep) h2

section

variable {base : List Block} {test : Bool} {loop loopIf : TokPos → M TokPos} {m : Mode} {outer : List Bool} {t : TokPos}
  {i i1 : Input} {s : State} (q : Pos)

theorem skip_end (hm : m.dead = test :: outer) (hstep : m.step cx t i = .goOn m.close i) (h : At base m i s) :
    Result.Meets ((do
      condEnd
      closeDeadBlock q
      lexerToken cx : M TokPos) s) (Skipped cx base m t i (m.After test)) (Ended cx base m t i) := by
  refine meets_bind (condEnd_meets (h.ofDead hm)) ?_
  rintro _ s1 h1
  refine meets_bind (closeDeadBlock_meets q h1) ?_
  rintro _ s2 h2
  refine (lexerToken_meets h2).mono ?_ fun _ => id
  rintro tk s3 ⟨rfl, h3⟩
  exact .inl ⟨m.close, .inl rfl, .of_step (.close hm h3) hstep⟩

/-- An `#elseif` of a group that has been live, or is within dead code. -/
theorem skip_elseif (ih : SkipsDead cx base test loop) (hm : m.dead = test :: outer)
    (hstep : m.step cx t i = match i.cond cx with
      | none => m.close.raise
      | some (_, i) => .goOn m i) (h : At base m i s) :
    Result.Meets ((do
      closeDeadBlock q
      let (e, pe) ← condition cx
      condElseif e
      openDeadBlock pe
      let tk ← lexerToken cx
      loop tk : M TokPos) s) (Skipped cx base m t i (m.After test)) (Ended cx base m t i) := by
  refine meets_bind (closeDeadBlock_meets q (h.ofDead hm)) ?_
  rintro _ s1 h1
  refine meets_bind ((condition_meets h1).mono (fun _ _ h => h) ?_) ?_
  · rintro s2 ⟨hi, h2⟩
    rw [hi] at hstep
    exact .of_raise (At.close hm ⟨h2.mono (Nat.le_succ _), rfl⟩).1 hstep
  · rintro ⟨e, pe⟩ s2 ⟨i1, hi1, h2⟩
    rw [hi1] at hstep
    refine meets_bind (condElseif_meets e h2) ?_
    rintro _ s3 h3
    refine meets_bind (openDeadBlock_meets pe h3) ?_
    rintro _ s4 h4
    exact skip_next ih hm hstep (.toDead hm h4)

theorem skip_else (ih : SkipsDead cx base test loop) (hm : m.dead = test :: outer) (hstep : m.step cx t i = .goOn m i)
    (h : At base m i s) :
    Result.Meets ((do
      condElse
      closeDeadBlock q
      openDeadBlock q
      let tk ← lexerToken cx
      loop tk : M TokPos) s) (Skipped cx base m t i (m.After test)) (Ended cx base m t i) := by
  refine meets_bind (condElse_meets (h.ofDead hm)) ?_
  rintro _ s1 h1
  refine meets_bind (closeDeadBlock_meets q h1) ?_
  rintro _ s2 h2
  refine meets_bind (openDeadBlock_meets q h2) ?_
  rintro _ s3 h3
  exact skip_next ih hm hstep (.toDead hm h3)

/-- An `#else` that makes the code live. -/
theorem skip_live (hm : m.dead = true :: outer) (hstep : m.step cx t i = .goOn { m.close with groups := m.groups + 1 }
  i)
    (h : At base m i s) :
    Result.Meets ((do
      condElse
      closeDeadBlock q
      setMstack (q :: (← getMstack))
      lexerToken cx : M TokPos) s) (Skipped cx base m t i (m.After true)) (Ended cx base m t i) := by
  refine meets_bind (condElse_meets (h.ofDead hm)) ?_
  rintro _ s1 h1
  refine meets_bind (closeDeadBlock_meets q h1) ?_
  rintro _ s2 h2
  refine meets_bind (getMstack_meets h2) ?_
  rintro l s3 ⟨hl, h3⟩
  refine meets_bind (setMstack_meets (q :: l) h3) ?_
  rintro _ s4 h4
  refine (lexerToken_meets h4).mono ?_ fun _ => id
  rintro tk s5 ⟨rfl, h5⟩
  refine .inl ⟨_, .inr ⟨rfl, rfl⟩, .of_step ?_ hstep⟩
  rw [List.length_cons, hl] at h5
  unfold At Mode.close
  rw [hm, List.tail_cons, Nat.add_right_comm]
  exact h5

/-- A nested group: its first branch is skipped, and then the rest of the branch around it. -/
theorem skip_if (heof : AtEof loop) (ih : SkipsDead cx base test loop) (ihIf : SkipsDead cx base false loopIf)
    (hm : m.dead = test :: outer)
    (hstep : m.step cx t i = match i.cond cx with
      | none => .left
      | some (_, i) => .goOn { m with dead := false :: m.dead } i) (h : At base m i s) :
    Result.Meets ((do
      let (e, pe) ← condition cx
      condIf e
      openDeadBlock pe
      let tk ← lexerToken cx
      let tk ← loopIf tk
      loop tk : M TokPos) s) (Skipped cx base m t i (m.After test)) (Ended cx base m t i) := by
  refine meets_bind ((condition_meets h).mono (fun _ _ h => h) ?_) ?_
  · rintro s1 ⟨hi, h1⟩
    rw [hi] at hstep
    refine .of_raise h1 (hstep.trans ?_)
    unfold Mode.raise Mode.isDead
    rw [hm]
    rfl
  · rintro ⟨e, pe⟩ s1 ⟨i1, hi1, h1⟩
    rw [hi1] at hstep
    refine meets_bind (condIf_meets e h1) ?_
    rintro _ s2 h2
    refine meets_bind (openDeadBlock_meets pe h2) ?_
    rintro _ s3 h3
    refine meets_bind (lexerToken_meets h3) ?_
    rintro tk s4 ⟨rfl, h4⟩
    refine meets_bind ((ihIf _ { m with dead := false :: m.dead } m.dead _ rfl s4 h4).mono
      (fun _ _ h => Skipped.of_leads (.step hstep) h) fun _ h => .of_leads (.step hstep) h) ?_
    rintro tk s5 (⟨m1, rfl | ⟨hfalse, -⟩, h5⟩ | ⟨he, h5⟩)
    · refine (ih tk m outer s5.input hm s5 h5.state).mono ?_ ?_
      · exact fun _ _ h6 => .of_leads h5.leads h6
      · exact fun _ h6 => .of_leads h5.leads h6
    · cases hfalse
    · -- the file has ended within the nested group
      refine (heof tk s5 he s5 rfl).mono ?_ fun _ => False.elim
      rintro tk s6 ⟨rfl, hc, hms, hdb⟩
      exact .inr ⟨he, h5.congr hc hms hdb⟩

end

theorem skip_spec (hd : cx.inDisplay = true) (base : List Block) :
    ∀ (p : Pos) (test : Bool),
      AtEof (skipTokensLoop cx p test) ∧ SkipsDead cx base test (skipTokensLoop cx p test) := by
  refine skipTokensLoop.fixpoint_induct cx (fun f => ∀ isIf p, Enters cx base isIf (f isIf p))
    (fun f => ∀ p test, AtEof (f p test) ∧ SkipsDead cx base test (f p test)) ?_ ?_ ?_ ?_
  · intro c hc h
    have hresults : OfResults (fun (f : Bool → Pos → M TokPos) (x : (Bool × Pos) × State) => f x.1.1 x.1.2 x.2)
        fun f => ∀ isIf p, Enters cx base isIf (f isIf p) := by
      refine .forall fun isIf => .forall fun p => ?_
      exact (ofResults_enters base isIf).comap (fun f : Bool → Pos → M TokPos => f isIf p) ((isIf, p), ·) fun _ _ => rfl
    refine hresults.choose (fun g => ⟨fun isIf p s => g ((isIf, p), s), fun _ => rfl⟩)
      (fun f g => ⟨fun h x => h x.1.1 x.1.2 x.2, fun h isIf p s => h ((isIf, p), s)⟩) (fun u v => ⟨?_, ?_⟩) h _
    · rintro (_ | _)
      · exact .inl rfl
      · exact .inr rfl
    · rintro (rfl | rfl)
      · constructor
      · constructor
  · intro c hc h
    have hresults : OfResults
        (fun (f : Pos → Bool → TokPos → M TokPos) (x : (Pos × Bool) × TokPos × State) => f x.1.1 x.1.2 x.2.1 x.2.2)
        fun f => ∀ p test, AtEof (f p test) ∧ SkipsDead cx base test (f p test) := by
      refine .forall fun p => .forall fun test => ?_
      exact (ofResults_atEof.and (ofResults_skips base test)).comap
        (fun f : Pos → Bool → TokPos → M TokPos => f p test) ((p, test), ·) fun _ _ => rfl
    refine hresults.choose (fun g => ⟨fun p test t s => g ((p, test), t, s), fun _ => rfl⟩)
      (fun f g => ⟨fun h x => h x.1.1 x.1.2 x.2.1 x.2.2, fun h p test t s => h ((p, test), t, s)⟩)
      (fun u v => ⟨?_, ?_⟩) h _
    · rintro (_ | _)
      · exact .inl rfl
      · exact .inr rfl
    · rintro (rfl | rfl)
      · constructor
      · constructor
  · exact fun loop ih isIf p => enter_meets (ih p true).2 isIf p
  · intro enter loop ihE ihL p test
    refine ⟨?_, ?_⟩
    · rintro ⟨t, q⟩ s0 rfl s rfl
      simp only [syntaxError, hd, if_true]
      exact ⟨rfl, rfl, rfl, rfl⟩
    rintro ⟨t, q⟩ m outer i hm s h
    cases t with
    | sharp name =>
      have hstep : m.step cx (.sharp name, q) i = m.skip cx test name i := by simp only [Mode.step, hm]
      unfold Mode.skip at hstep
      -- the directives in the order in which the loop asks for them
      dsimp only
      split_ifs at hstep ⊢ with hend helseif helse helse' helseif' hif hplain
      · exact skip_end q hm hstep h
      · exact skip_elseif q (ihL p test).2 hm hstep h
      · exact skip_else q (ihL p test).2 hm hstep h
      · obtain rfl : test = true := Bool.of_not_eq_false fun htest => helse ⟨helse', htest⟩
        exact skip_live q hm hstep h
      · obtain rfl : test = true := Bool.of_not_eq_false fun htest => helseif ⟨helseif', htest⟩
        refine meets_bind (closeDeadBlock_meets q (h.ofDead hm)) ?_
        rintro _ s1 h1
        refine (ihE false q m m.close _ i i hstep s1 ?_).mono ?_ fun _ => id
        · unfold Mode.close
          rw [hm]
          exact h1
        · rintro tk s2 h2
          refine h2.imp ?_
          rintro m1 (rfl | rfl)
          · exact .inl rfl
          · exact .inr ⟨rfl, rfl⟩
      · exact skip_if (ihL p test).1 (ihL p test).2 (ihL p false).2 hm hstep h
      · exact skip_next (ihL p test).2 hm hstep h
      · refine .of_raise h.1 (hstep.trans ?_)
        unfold Mode.raise Mode.isDead
        rw [hm]
        rfl
    | eof =>
      simp only [syntaxError, hd, if_true]
      obtain ⟨b, bs, hb⟩ : ∃ b bs, s.dbc.currentBlock = b :: (bs ++ base) := by
        obtain ⟨_ | ⟨b, bs⟩, hn, hb⟩ := (h.ofDead hm).1.blocks
        · cases hn
        · exact ⟨b, bs, hb⟩
      exact .inr ⟨rfl, h.condsOk, .here (by simp only [Mode.step, hm]), b, bs, hb⟩
    | _ => exact skip_next (ihL p test).2 hm (by simp only [Mode.step, hm]) h

end EvilHaxe.ParserEntry
