/-
`parse` while a display request is served. Its exit asks for the dead blocks, and asserts that none is
open. A call of `next_token` leaves none open unless it is left inside dead code; the grammar may have
recovered from the error that this is, or seen the end of the file.
-/
import EvilHaxe.ParserEntry.OpenBlocks
import EvilHaxe.ParserEntry.Soundness

namespace EvilHaxe.ParserEntry

open EvilHaxe.Syntax Lib ConditionHandler

variable {cx : Context}

/-! ## `next_token` -/

/-- A token is delivered, in a mode of live code, or the end of the file inside dead code. -/
def Delivered (cx : Context) (base : List Block) (m : Mode) (t : TokPos) (i : Input) (t' : TokPos) (s : State) : Prop :=
  (∃ m', m'.dead = [] ∧ m'.lines = m.lines ∧ m'.step cx t' s.input = m'.deliver t' s.input ∧ Gone cx base m t i m' t'
    s) ∨
    t'.1 = .eof ∧ Left cx base m t i s

/-- What `next_token` does in live code. -/
def DeliversLive (cx : Context) (base : List Block) (f : M TokPos) : Prop :=
  ∀ (m : Mode) (i : Input), m.dead = [] →
    Keeps (At base m i) f (Delivered cx base m (i.next cx).1 (i.next cx).2) (Ended cx base m (i.next cx).1 (i.next
      cx).2)

/-- What `process_token` does in live code. -/
def Processes (cx : Context) (base : List Block) (f : TokPos → M TokPos) : Prop :=
  ∀ (t : TokPos) (m : Mode) (i : Input), m.dead = [] →
    Keeps (At base m i) (f t) (Delivered cx base m t i) (Ended cx base m t i)

theorem ofResults_deliversLive (base : List Block) :
    OfResults (fun (f : M TokPos) s => f s) (DeliversLive cx base) := by
  unfold DeliversLive
  iterate 3 refine .forall fun _ => ?_
  exact ofResults_keeps _ _ _

theorem ofResults_processes (base : List Block) :
    OfResults (fun (f : TokPos → M TokPos) (x : TokPos × State) => f x.1 x.2) (Processes cx base) := by
  refine .forall fun t => ?_
  iterate 3 refine .forall fun _ => ?_
  exact (ofResults_keeps _ _ _).comap (fun f : TokPos → M TokPos => f t) (t, ·) fun _ _ => rfl

section

variable {base : List Block} {m m' : Mode} {t t' : TokPos} {i i' : Input} {s : State}

theorem Delivered.of_leads {t1 : TokPos} (hl : Leads cx m t i m' t' i') (hlines : m'.lines = m.lines)
    (h : Delivered cx base m' t' i' t1 s) : Delivered cx base m t i t1 s := by
  rcases h with ⟨m1, hm1, hl1, hs, h⟩ | ⟨he, h⟩
  · exact .inl ⟨m1, hm1, hl1.trans hlines, hs, .of_leads hl h⟩
  · exact .inr ⟨he, .of_leads hl h⟩

/-- The token itself. -/
theorem Delivered.self (h : At base m i s) (hm : m.dead = []) (hstep : m.step cx t i = m.deliver t i) :
    Delivered cx base m t i t s := by
  obtain ⟨h, rfl⟩ := h
  exact .inl ⟨m, hm, rfl, hstep, ⟨h, rfl⟩, fun _ => id⟩

theorem At.ofLive (h : At base m i s) (hm : m.dead = []) : Tallied base m.groups m.groups 0 i s := by
  unfold At at h
  rw [hm] at h
  exact h

theorem At.toLive (hm : m.dead = []) (h : Tallied base m.groups m.groups 0 i s) : At base m i s := by
  unfold At
  rw [hm]
  exact h

theorem Ended.of_stop (h : Tallied base (m.groups + m.dead.length) m.groups m.dead.length i' s) (hm : m.dead = [])
    (hstep : m.step cx t i = .stop) : Ended cx base m t i s := by
  refine .of_raise h.1 (hstep.trans ?_)
  unfold Mode.raise Mode.isDead
  rw [hm]
  rfl

/-- After a skip, the token that it has come to is processed. -/
theorem process_after {process : TokPos → M TokPos} (heof : AtEof process) (ih : Processes cx base process)
    {next : Mode → Prop} (hnext : ∀ m', next m' → m'.dead = [] ∧ m'.lines = m.lines) {r : M TokPos}
    (h : Result.Meets (r s) (Skipped cx base m t i next) (Ended cx base m t i)) :
    Result.Meets ((r >>= process) s) (Delivered cx base m t i) (Ended cx base m t i) := by
  refine meets_bind h ?_
  rintro tk s1 (⟨m1, hm1, h1⟩ | ⟨he, h1⟩)
  · obtain ⟨hdead, hlines⟩ := hnext m1 hm1
    refine (ih tk m1 s1.input hdead s1 h1.state).mono ?_ ?_
    · exact fun _ _ h2 => .of_leads h1.leads hlines h2
    · exact fun _ h2 => .of_leads h1.leads h2
  · refine (heof tk s1 he s1 rfl).mono ?_ fun _ => False.elim
    rintro tk s2 ⟨rfl, hc, hms, hdb⟩
    exact .inr ⟨he, h1.congr hc hms hdb⟩

end

theorem setDoc_meets {base : List Block} {k g n : Nat} {i : Input} {s : State} {E : State → Prop} (str : String)
    (p : Pos)
    (h : Tallied base k g n i s) : Result.Meets (setDoc str p s) (fun _ s' => Tallied base k g n i s') E := by
  obtain ⟨⟨hc, hm, hb⟩, rfl⟩ := h
  unfold setDoc
  split
  · exact ⟨⟨hc, hm, hb⟩, rfl⟩
  · exact ⟨⟨hc, hm, hb⟩, rfl⟩

/-- A directive that belongs to the innermost live group, if there is one. -/
theorem group_meets {base : List Block} {m : Mode} {i : Input} {s : State} {t : TokPos} {rest : List Pos → M TokPos}
    {Q : TokPos → State → Prop} {E : State → Prop} (h : Tallied base m.groups m.groups 0 i s)
    (hnone : m.groups = 0 → ∀ s, Tallied base m.groups m.groups 0 i s → Q t s)
    (hsome : ∀ l s, m.groups = l.length + 1 → Tallied base (l.length + 1) (l.length + 1) 0 i s → Result.Meets (rest l
      s) Q E) :
    Result.Meets ((do
      match ← getMstack with
      | [] => pure t
      | _ :: l => rest l : M TokPos) s) Q E := by
  refine meets_bind (getMstack_meets h) ?_
  rintro l s1 ⟨hl, h1⟩
  cases l with
  | nil => exact hnone hl.symm s1 h1
  | cons q l =>
    rw [← hl] at h1
    exact hsome l s1 hl.symm h1

theorem enter_spec (hd : cx.inDisplay = true) (base : List Block) (isIf : Bool) (p : Pos) :
    Enters cx base isIf (enterMacro cx isIf p) := by
  rw [enterMacro]
  exact enter_meets (skip_spec hd base p true).2 isIf p

/-- The dead branches after a live one, and what is after their group. -/
theorem abandon_meets (hd : cx.inDisplay = true) {base : List Block} {process : TokPos → M TokPos}
    (heof : AtEof process)
    (ih : Processes cx base process) {m : Mode} {t : TokPos} {i i' : Input} {s : State} (q : Pos)
    {l : List Pos} (hl : m.groups = l.length + 1) (hstep : m.step cx t i = .goOn m.abandon i')
    (h : Tallied base (l.length + 1) l.length 1 i' s) :
    Result.Meets ((do process (← skipTokens cx q false) : M TokPos) s) (Delivered cx base m t i) (Ended cx base m t i)
      := by
  have hafter : ∀ m1, m.abandon.After false m1 → m1.dead = [] ∧ m1.lines = m.lines := by
    rintro m1 (rfl | ⟨hfalse, -⟩)
    · exact ⟨rfl, rfl⟩
    · cases hfalse
  refine process_after heof ih hafter ?_
  · have hat : At base m.abandon i' s := by
      unfold At Mode.abandon
      rw [hl]
      exact h
    refine meets_bind (lexerToken_meets hat) ?_
    rintro tk s1 ⟨rfl, h1⟩
    refine ((skip_spec hd base q false).2 _ m.abandon [] _ rfl s1 h1).mono ?_ ?_
    · exact fun _ _ h2 => .of_leads (.step hstep) h2
    · exact fun _ h2 => .of_leads (.step hstep) h2

theorem live_spec (hd : cx.inDisplay = true) (base : List Block) : DeliversLive cx base (nextToken cx) := by
  refine nextToken.fixpoint_induct cx (DeliversLive cx base) (fun f => AtEof f ∧ Processes cx base f) ?_ ?_ ?_ ?_
  · intro c hc h
    refine (ofResults_deliversLive base).choose (fun g => ⟨g, fun _ => rfl⟩) (fun _ _ => Iff.rfl)
      (fun u v => ⟨?_, ?_⟩) h _
    · rintro (_ | _)
      · exact .inl rfl
      · exact .inr rfl
    · rintro (rfl | rfl)
      · constructor
      · constructor
  · intro c hc h
    refine (ofResults_atEof.and (ofResults_processes base)).choose (fun g => ⟨fun t s => g (t, s), fun _ => rfl⟩)
      (fun f g => ⟨fun h x => h x.1 x.2, fun h t s => h (t, s)⟩) (fun u v => ⟨?_, ?_⟩) h _
    · rintro (_ | _)
      · exact .inl rfl
      · exact .inr rfl
    · rintro (rfl | rfl)
      · constructor
      · constructor
  · rintro process ⟨-, ih⟩ m i hm s h
    refine meets_bind (lexerToken_meets h) ?_
    rintro tk s1 ⟨rfl, h1⟩
    exact ih _ m _ hm s1 h1
  · rintro next process ihN ⟨heof, ihP⟩
    refine ⟨?_, ?_⟩
    · rintro ⟨t, q⟩ s0 rfl s rfl
      exact ⟨rfl, rfl, rfl, rfl⟩
    rintro ⟨t, q⟩ m i hm s h
    cases t with
    | comment str =>
      refine meets_bind (setDoc_meets str q h) ?_
      rintro _ s1 h1
      have hstep : m.step cx (.comment str, q) i = .goOn m i := by simp only [Mode.step, hm]
      refine (ihN m i hm s1 h1).mono ?_ ?_
      · exact fun _ _ h2 => .of_leads (.step hstep) rfl h2
      · exact fun _ h2 => .of_leads (.step hstep) h2
    | commentLine str =>
      by_cases hcomp : commentCompletion cx q = true
      · have hstep : m.step cx (.commentLine str, q) i = .stop := by simp only [Mode.step, hm, hcomp, if_true]
        simp only [hcomp, if_true]
        exact .of_stop h hm hstep
      · have hstep : m.step cx (.commentLine str, q) i = .goOn m i := by
          simp only [Mode.step, hm, hcomp, if_false, Bool.false_eq_true]
        simp only [hcomp, if_false, Bool.false_eq_true]
        refine (ihN m i hm s h).mono ?_ ?_
        · exact fun _ _ h2 => .of_leads (.step hstep) rfl h2
        · exact fun _ h2 => .of_leads (.step hstep) h2
    | sharp name =>
      have hstep : m.step cx (.sharp name, q) i = m.direct cx name (.sharp name, q) i := by simp only [Mode.step, hm]
      have hlive := h.ofLive hm
      unfold Mode.direct at hstep
      dsimp only
      split_ifs at hstep ⊢ with hend hgroups helseif hgroups helse hgroups hif herror hline hattr
      · refine group_meets hlive (fun _ s1 h1 => .self (.toLive hm h1) hm hstep) fun l s1 hl => ?_
        omega
      · refine group_meets hlive (fun h0 => absurd h0 hgroups) fun l s1 hl h1 => ?_
        refine meets_bind (condEnd_meets h1) ?_
        rintro _ s2 h2
        refine meets_bind (setMstack_meets l h2) ?_
        rintro _ s3 h3
        rw [hl] at hstep
        refine (ihN { m with groups := l.length } i hm s3 (.toLive hm h3)).mono ?_ ?_
        · exact fun _ _ h4 => .of_leads (.step hstep) rfl h4
        · exact fun _ h4 => .of_leads (.step hstep) h4
      · refine group_meets hlive (fun _ s1 h1 => .self (.toLive hm h1) hm hstep) fun l s1 hl => ?_
        omega
      · refine group_meets hlive (fun h0 => absurd h0 hgroups) fun l s1 hl h1 => ?_
        refine meets_bind ((condition_meets h1).mono (fun _ _ h => h) ?_) ?_
        · rintro s2 ⟨hi, h2⟩
          rw [hi] at hstep
          rw [← hl] at h2
          exact .of_stop (At.toLive hm ⟨h2, rfl⟩) hm hstep
        · rintro ⟨e, pe⟩ s2 ⟨i1, hi1, h2⟩
          rw [hi1] at hstep
          refine meets_bind (condElseif_meets e h2) ?_
          rintro _ s3 h3
          refine meets_bind (openDeadBlock_meets pe h3) ?_
          rintro _ s4 h4
          refine meets_bind (setMstack_meets l h4) ?_
          rintro _ s5 h5
          exact abandon_meets hd heof ihP q hl hstep h5
      · refine group_meets hlive (fun _ s1 h1 => .self (.toLive hm h1) hm hstep) fun l s1 hl => ?_
        omega
      · refine group_meets hlive (fun h0 => absurd h0 hgroups) fun l s1 hl h1 => ?_
        refine meets_bind (condElse_meets h1) ?_
        rintro _ s2 h2
        refine meets_bind (openDeadBlock_meets q h2) ?_
        rintro _ s3 h3
        refine meets_bind (setMstack_meets l h3) ?_
        rintro _ s4 h4
        exact abandon_meets hd heof ihP q hl hstep h4
      · refine process_after heof ihP ?_ (enter_spec hd base true q m m _ i i hstep s h)
        rintro m1 (rfl | rfl)
        · exact ⟨hm, rfl⟩
        · exact ⟨hm, rfl⟩
      · refine meets_bind (lexerToken_meets hlive) ?_
        rintro tk s1 ⟨-, h1⟩
        exact .of_stop (At.toLive hm ⟨h1.1, rfl⟩) hm hstep
      · refine meets_bind ((ihN { m with lines := m.lines + 1 } i hm s h).mono (fun _ _ h => h)
          fun _ h1 => .of_leads (.step hstep) h1) ?_
        rintro tk s1 h1
        unfold lineNumber
        rcases h1 with ⟨m1, hm1, hl1, hs1, h1⟩ | ⟨he, h1⟩
        · have h2 := Gone.of_leads (.step hstep) h1
          unfold Mode.deliver at hs1
          rw [hl1] at hs1
          cases hline : lineError tk.1 with
          | some msg =>
            simp only [hline, reduceCtorEq, if_false] at hs1
            exact .of_leads h2.leads (.of_stop h2.state hm1 hs1)
          | none =>
            simp only [hline, if_true] at hs1
            have hleads : Leads cx m (.sharp name, q) i { m1 with lines := m.lines } (s1.input.next cx).1
                (s1.input.next cx).2 := fun n hn => h2.leads n (.later hs1 hn)
            refine (ihN { m1 with lines := m.lines } s1.input hm1 s1 h2.state).mono ?_ ?_
            · exact fun _ _ h3 => .of_leads hleads rfl h3
            · exact fun _ h3 => .of_leads hleads h3
        · rw [he]
          exact .inr (.of_leads (.step hstep) h1)
      · simp only [checkSharp, hattr, if_true]
        exact .self h hm hstep
      · simp only [checkSharp, hattr, if_false, Bool.false_eq_true]
        exact .of_stop h hm hstep
    | _ => exact .self h hm (by simp only [Mode.step, hm])

/-! ## Calls -/

theorem Ends.unique {n n' : Next} {m : Mode} {t : TokPos} {i : Input} (h : Ends cx n m t i) (h' : Ends cx n' m t i)
    (hn : ∀ m i, n ≠ .goOn m i) (hn' : ∀ m i, n' ≠ .goOn m i) : n = n' := by
  induction h with
  | here hstep =>
    cases h' with
    | here hstep' => exact hstep.symm.trans hstep'
    | later hstep' _ => exact absurd (hstep.symm.trans hstep') (hn _ _)
  | later hstep _ ih =>
    cases h' with
    | here hstep' => exact absurd (hstep'.symm.trans hstep) (hn' _ _)
    | later hstep' h' =>
      obtain ⟨rfl, rfl⟩ := Next.goOn.inj (hstep.symm.trans hstep')
      exact ih h'

/-- A call of `next_token` in this state is left inside dead code: after a condition that is false, or after
a live branch, the file ends, a directive is unknown or the condition of a nested group cannot be read
before the group is closed. -/
def LeavesOpen (cx : Context) (s : State) : Prop :=
  Ends cx .left ⟨s.mstack.length, 0, []⟩ (s.input.next cx).1 (s.input.next cx).2

/-- The groups of the state are open, and above the blocks of `s0` there are blocks unless `P`. -/
def BlocksKept (P : Prop) (s0 s : State) : Prop :=
  CondsOk s.mstack.length s.conds ∧ ∃ bs : List Block, s.dbc.currentBlock = bs ++ s0.dbc.currentBlock ∧ (bs = [] ↔ P)

theorem BlocksKept.trans {P Q R : Prop} {s0 s1 s2 : State} (h1 : BlocksKept P s0 s1) (h2 : BlocksKept Q s1 s2)
    (hR : R ↔ P ∧ Q) : BlocksKept R s0 s2 := by
  obtain ⟨-, bs1, hb1, hp⟩ := h1
  obtain ⟨hc, bs2, hb2, hq⟩ := h2
  refine ⟨hc, bs2 ++ bs1, by rw [hb2, hb1, List.append_assoc], ?_⟩
  rw [hR, List.append_eq_nil_iff, hp, hq, and_comm]

/-- A call leaves the blocks that were open, and opens blocks exactly when it is left inside dead code. -/
theorem nextToken_blocks (hd : cx.inDisplay = true) {s : State} (h : CondsOk s.mstack.length s.conds) :
    Result.Meets (nextToken cx s) (fun _ => BlocksKept (¬ LeavesOpen cx s) s) (BlocksKept (¬ LeavesOpen cx s) s) := by
  have hat : At s.dbc.currentBlock ⟨s.mstack.length, 0, []⟩ s.input s := ⟨⟨h, rfl, [], rfl, rfl⟩, rfl⟩
  have hended : ∀ s', Ended cx s.dbc.currentBlock ⟨s.mstack.length, 0, []⟩ (s.input.next cx).1 (s.input.next cx).2 s' →
      BlocksKept (¬ LeavesOpen cx s) s s' := by
    rintro s' (h' | h')
    · refine ⟨h'.conds, [], h'.blocks, iff_of_true rfl fun hleft => ?_⟩
      cases h'.ends.unique hleft nofun nofun
    · obtain ⟨b, bs, hb⟩ := h'.blocks
      exact ⟨h'.conds, b :: bs, hb, iff_of_false nofun fun hn => hn h'.ends⟩
  refine (live_spec hd s.dbc.currentBlock ⟨s.mstack.length, 0, []⟩ s.input rfl s hat).mono ?_ hended
  rintro tk s' (⟨m, hm, hl, hstep, hgone⟩ | ⟨-, hleft⟩)
  · rw [Mode.deliver, hl] at hstep
    exact hended s' (.of_leads hgone.leads (.of_stop hgone.state hm hstep))
  · exact hended s' (.inr hleft)

/-! ## `parse` -/

/-- What the grammar does with the stream of tokens: it asks for tokens, may go on after an exception, and
returns or raises. -/
inductive Entry (α : Type) where
  | ret (data : α)
  | fail (x : Exc)
  | next (k : Except Exc TokPos → Entry α)

section

variable {α : Type}

def Entry.run (cx : Context) : Entry α → State → Option (Except Exc α × State)
  | .ret data, s => some (.ok data, s)
  | .fail x, s => some (.error x, s)
  | .next k, s =>
    match nextToken cx s with
    | none => none
    | some (.ok (tk, s)) => (k (.ok tk)).run cx s
    | some (.error (x, s)) => (k (.error x)).run cx s

/-- The grammar asks for a token in the state. -/
inductive Entry.Calls (cx : Context) (s1 : State) : Entry α → State → Prop where
  | here {k : Except Exc TokPos → Entry α} : Calls cx s1 (.next k) s1
  | later {k : Except Exc TokPos → Entry α} {s s' : State} {tk : TokPos} : nextToken cx s = some (.ok (tk, s')) →
      Calls cx s1 (k (.ok tk)) s' → Calls cx s1 (.next k) s
  | recovered {k : Except Exc TokPos → Entry α} {s s' : State} {x : Exc} : nextToken cx s = some (.error (x, s')) →
      Calls cx s1 (k (.error x)) s' → Calls cx s1 (.next k) s

/-- `get_dead_blocks`, `none` where its assertion fails. -/
def DeadBlockCollector.getDeadBlocks (dbc : DeadBlockCollector) : Option (List Block) :=
  match dbc.currentBlock with
  | [] => some dbc.deadBlocks
  | _ :: _ => none

/-- The results of `parse`; what it raises is left out. -/
inductive ParseResult (α : Type) where
  | parseSuccess (data : α) (isDisplayFile : Bool) (errors : List ErrorMsg) (deadBlocks : List Block) (conditions :
    List Expr)
  | parseError (data : α) (error : ErrorMsg) (errors : List ErrorMsg)
  | raised
  | assertFailure

/-- The exit of `parse` after the grammar has returned. -/
def parseExit (cx : Context) (data : α) (s : State) : ParseResult α :=
  let errors := if s.mstack = [] then s.syntaxErrors else .unclosedConditional :: s.syntaxErrors
  if s.mstack ≠ [] ∧ cx.inDisplay = false then .raised
  else
    match s.dbc.getDeadBlocks with
    | none => .assertFailure
    | some deadBlocks =>
      if cx.inDisplayFile then .parseSuccess data true errors.reverse deadBlocks s.conds.conditionalExpressions
      else
        match errors.reverse with
        | [] => .parseSuccess data false [] deadBlocks s.conds.conditionalExpressions
        | error :: errors => .parseError data error errors

/-- `parse`, on the tokens of a file. -/
def parse (cx : Context) (entry : Entry α) (code : List TokPos) : Option (ParseResult α) :=
  match entry.run cx (.init code) with
  | none => none
  | some (.ok data, s) => some (parseExit cx data s)
  | some (.error _, _) => some .raised

theorem calls_next {k : Except Exc TokPos → Entry α} {s s' : State} {r : Except Exc TokPos} {P : State → Prop}
    (hnext : nextToken cx s = some (match r with
      | .ok tk => .ok (tk, s')
      | .error x => .error (x, s'))) :
    (∀ s1, Entry.Calls cx s1 (.next k) s → P s1) ↔ P s ∧ ∀ s1, Entry.Calls cx s1 (k r) s' → P s1 := by
  constructor
  · intro h
    refine ⟨h s .here, fun s1 hs1 => h s1 ?_⟩
    cases r with
    | ok tk => exact .later hnext hs1
    | error x => exact .recovered hnext hs1
  · rintro ⟨hs, h⟩ s1 (_ | ⟨hn, hs1⟩ | ⟨hn, hs1⟩)
    · exact hs
    · rw [hn] at hnext
      cases r with
      | ok tk =>
        cases hnext
        exact h s1 hs1
      | error x => cases hnext
    · rw [hn] at hnext
      cases r with
      | ok tk => cases hnext
      | error x =>
        cases hnext
        exact h s1 hs1

/-- A run of the grammar opens blocks exactly when one of its calls is left inside dead code. -/
theorem run_blocks (hd : cx.inDisplay = true) : ∀ (entry : Entry α) {s s' : State} {r : Except Exc α},
    CondsOk s.mstack.length s.conds → entry.run cx s = some (r, s') →
    BlocksKept (∀ s1, entry.Calls cx s1 s → ¬ LeavesOpen cx s1) s s'
  | .ret data, s, s', r, h, hrun => by
    cases hrun
    exact ⟨h, [], rfl, iff_of_true rfl nofun⟩
  | .fail x, s, s', r, h, hrun => by
    cases hrun
    exact ⟨h, [], rfl, iff_of_true rfl nofun⟩
  | .next k, s, s', r, h, hrun => by
    have hcall := nextToken_blocks hd h
    unfold Entry.run at hrun
    rcases hnext : nextToken cx s with _ | ⟨x, s1⟩ | ⟨tk, s1⟩
    · rw [hnext] at hrun
      cases hrun
    · rw [hnext] at hrun hcall
      exact hcall.trans (run_blocks hd (k (.error x)) hcall.1 hrun) (calls_next (r := .error x) hnext)
    · rw [hnext] at hrun hcall
      exact hcall.trans (run_blocks hd (k (.ok tk)) hcall.1 hrun) (calls_next (r := .ok tk) hnext)

theorem getDeadBlocks_iff (dbc : DeadBlockCollector) : dbc.getDeadBlocks = none ↔ dbc.currentBlock ≠ [] := by
  unfold DeadBlockCollector.getDeadBlocks
  split
  · next h => simp only [h, reduceCtorEq, ne_eq, not_true]
  · next h => simp only [h, reduceCtorEq, ne_eq, not_false_eq_true]

theorem parseExit_iff (hd : cx.inDisplay = true) (data : α) (s : State) :
    parseExit cx data s = .assertFailure ↔ s.dbc.currentBlock ≠ [] := by
  rw [← getDeadBlocks_iff]
  unfold parseExit
  rw [if_neg (fun h => by rw [hd] at h; cases h.2)]
  cases s.dbc.getDeadBlocks with
  | none => exact iff_of_true rfl rfl
  | some bs =>
    refine iff_of_false (fun h => ?_) nofun
    dsimp only at h
    split at h
    · cases h
    · split at h <;> cases h

/-- While a display request is served, `parse` does not trip the assertion of `get_dead_blocks` exactly when no call of
`next_token`, in a run of the grammar that returns, is left inside dead code. -/
theorem parse_asserts_iff (hd : cx.inDisplay = true) (entry : Entry α) (code : List TokPos) :
    parse cx entry code ≠ some .assertFailure ↔
      ∀ data s, entry.run cx (.init code) = some (.ok data, s) →
        ∀ s1, entry.Calls cx s1 (.init code) → ¬ LeavesOpen cx s1 := by
  unfold parse
  rcases hrun : entry.run cx (.init code) with _ | ⟨x | data, s⟩
  · exact iff_of_true nofun nofun
  · exact iff_of_true nofun nofun
  · obtain ⟨-, bs, hb, hiff⟩ := run_blocks hd entry (s := .init code) condsOk_init hrun
    have hblocks : s.dbc.currentBlock = bs := by
      rw [hb]
      exact List.append_nil bs
    simp only [ne_eq, Option.some.injEq, parseExit_iff hd, hblocks, not_not, hiff]
    constructor
    · intro h data' s' hrun'
      exact h
    · exact fun h => h data s rfl

/-! ## An unterminated `#if` -/

/-- A skip at the end of the file records the error and goes on with the end of the file. -/
theorem skip_eof (hd : cx.inDisplay = true) (p : Pos) {s : State} (hs : s.code = []) :
    Result.thenRun (skipTokens cx p true s) (processToken cx) =
      some (.ok ((.eof, cx.eofPos), { s with syntaxErrors := .unclosedConditional :: s.syntaxErrors })) := by
  have heof : lexerToken cx s = some (.ok ((.eof, cx.eofPos), s)) := by
    unfold lexerToken
    rw [hs]
  rw [skipTokens, bind_apply, heof, thenRun_ok, skipTokensLoop.eq_def]
  simp only [syntaxError, hd, if_true, thenRun_ok]
  rw [processToken.eq_def]
  rfl

/-- A display request is served. -/
def displayContext : Context := { plainContext with inDisplay := true }

/-- The grammar asks for one token. -/
def oneToken : Entry Unit := .next fun _ => .ret ()

/-- `#if false #if a #end #end x` -/
def closedFile : List TokPos :=
  [(.sharp "if", ⟨0, 3⟩), (.kwd .kwFalse, ⟨4, 9⟩), (.sharp "if", ⟨10, 13⟩), (.const (.ident "a"), ⟨14, 15⟩),
    (.sharp "end", ⟨16, 20⟩), (.sharp "end", ⟨21, 25⟩), (.const (.ident "x"), ⟨26, 27⟩)]

theorem parse_asserts_closed : parse displayContext oneToken closedFile ≠ some .assertFailure := by
  refine (parse_asserts_iff rfl oneToken closedFile).mpr fun data s hrun s1 hcall hleft => ?_
  cases hcall with
  | here =>
    have hstop : Ends displayContext .stop ⟨0, 0, []⟩ (.sharp "if", ⟨0, 3⟩) ⟨[], closedFile.tail⟩ :=
      .later rfl (.later rfl (.later rfl (.later rfl (.here rfl))))
    cases hstop.unique hleft nofun nofun
  | later _ h => cases h
  | recovered _ h => cases h

/-- The condition `false`. -/
def falseCond : Cond displayContext :=
  ⟨[(.kwd .kwFalse, ⟨4, 9⟩)], .eConst (.ident "false"), ⟨4, 9⟩, fun _ => rfl⟩

/-- `#if false` -/
def openFile : List TokPos := (.sharp "if", ⟨0, 3⟩) :: falseCond.toks

/-- The error is recorded, the end of the file is delivered, and the block is still open. -/
theorem parse_open_file : parse displayContext oneToken openFile = some .assertFailure := by
  have hnext := nextToken_if falseCond ⟨0, 3⟩ [] [] [] [] [] [] [] none []
  rw [show branch displayContext falseCond ⟨0, 3⟩ [] [] _ _ _ [] [] none [] = skipTokens displayContext ⟨0,
    3⟩ true _ from rfl,
    skip_eof rfl _ rfl] at hnext
  unfold parse oneToken Entry.run
  rw [show nextToken displayContext (.init openFile) = _ from hnext]
  rfl

end

end EvilHaxe.ParserEntry
