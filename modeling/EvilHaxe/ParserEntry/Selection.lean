/-
`next_token` on a well-nested file. The events of a file are told by its tree: the live tokens, each
with the conditions above it, and the dead blocks. The run of `next_token` delivers what the events
call for, by induction on the tree: from a state in which the rest of the file is a piece before `k`,
the stacks are as before when `k` is reached.
-/
import EvilHaxe.ParserEntry.DeadCode

namespace EvilHaxe.ParserEntry

open EvilHaxe.Syntax ConditionHandler

variable {cx : Context}

/-! ## Events -/

inductive Event where
  | token (t : TokPos) (stack : List Expr)
  | dead (bs : List Block)
  | raise (x : Exc)

def liveEvent (st : List Expr) : Except Exc TokPos → Event
  | .ok t => .token t st
  | .error x => .raise x

def deadEvent : Except Exc (List Block) → Event
  | .ok bs => .dead bs
  | .error x => .raise x

mutual

/-- The events of live items under the conditions `st`. -/
def Items.live (st : List Expr) : Items cx → List TokPos → List Event
  | .nil, _ => []
  | .tok t _ rest, k => liveEvent st (liveToken cx t (rest.onto k)) :: rest.live st k
  | .group _ c body tail rest, k =>
    (match c.truth with
    | .error x => [.raise x]
    | .ok true => body.live (c.expr :: st) (tail.onto (rest.onto k)) ++ tail.after c.expr st
    | .ok false => deadEvent (body.dead (c.expr :: st)) ::
        tail.test c.expr st (opened c.pos (c.expr :: st)) (rest.onto k)) ++ rest.live st k

/-- The events of a group after its live branch. -/
def Tail.after (e : Expr) (g : List Expr) : Tail cx → List Event
  | .fin _ => []
  | .els p body pend =>
    [deadEvent (do
      let bs ← body.dead (negate e :: g)
      .ok (bs ++ [closed (opened p (negate e :: g)) pend]))]
  | .elif _ c body tail =>
    [deadEvent (do
      let bs1 ← body.dead (c.expr :: negate e :: g)
      let bs2 ← tail.dead c.expr (negate e :: g) (opened c.pos (c.expr :: negate e :: g))
      .ok (bs1 ++ bs2))]

/-- The events of a group that has had no live branch yet. -/
def Tail.test (e : Expr) (g : List Expr) (o : Block) : Tail cx → List TokPos → List Event
  | .fin p, _ => [.dead [closed o p]]
  | .els p body pend, k => .dead [closed o p] :: body.live (negate e :: g) ((.sharp "end", pend) :: k)
  | .elif p c body tail, k => .dead [closed o p] ::
    match c.truth with
    | .error x => [.raise x]
    | .ok true => body.live (c.expr :: negate e :: g) (tail.onto k) ++ tail.after c.expr (negate e :: g)
    | .ok false => deadEvent (body.dead (c.expr :: negate e :: g)) ::
        tail.test c.expr (negate e :: g) (opened c.pos (c.expr :: negate e :: g)) k

end

/-- What is delivered of the events, `n` being the number of `#line` directives that wait for their
number and `bs` the dead blocks so far. -/
def render (cx : Context) : Nat → List Block → List Event → List Delivery × End
  | 0, bs, [] => ([], .eof bs)
  | _ + 1, _, [] => ([], .raised (.error (.unexpected .eof)))
  | n, bs, .dead bs' :: evs => render cx n (bs ++ bs') evs
  | _, _, .raise x :: _ => ([], .raised x)
  | n, bs, .token t st :: evs =>
    match effect cx t, n with
    | .drop, n => render cx n bs evs
    | .line, n => render cx (n + 1) bs evs
    | .raise x, _ => ([], .raised x)
    | .keep, 0 => (⟨t, currentCondition st, bs⟩ :: (render cx 0 bs evs).1, (render cx 0 bs evs).2)
    | .keep, n + 1 =>
      match lineError t.1 with
      | none => render cx n bs evs
      | some msg => ([], .raised (.error msg))

/-! ## Runs that deliver events -/

/-- The rest of a call of `next_token` within `n` directives `#line`. -/
def afterLines (cx : Context) : Nat → TokPos → M TokPos
  | 0, tk => pure tk
  | n + 1, tk => do
    lineNumber tk
    afterLines cx n (← nextToken cx)

def collect (cx : Context) (r : Result TokPos) : Option (List Delivery × End) :=
  match r with
  | none => none
  | some (.error (x, _)) => some ([], .raised x)
  | some (.ok (tk, s)) =>
    if tk.1 = .eof then some ([], .eof s.dbc.deadBlocks)
    else (deliveries cx s).map fun r => (⟨tk, s.conds.getCurrentCondition, s.dbc.deadBlocks⟩ :: r.1, r.2)

theorem deliveries_eq (s : State) : deliveries cx s = collect cx (nextToken cx s) := by
  rw [deliveries]
  unfold collect
  rcases nextToken cx s with _ | _ | ⟨tk, s⟩
  · rfl
  · rfl
  · by_cases h : tk.1 = .eof
    · simp [h]
    · cases hd : deliveries cx s <;> simp [h, hd]

/-- A call of `next_token` with result `r` delivers the events. -/
def Delivers (cx : Context) (r : Result TokPos) (bs : List Block) (evs : List Event) : Prop :=
  ∀ n, collect cx (r.thenRun (afterLines cx n)) = some (render cx n bs evs)

theorem Delivers.raise (x : Exc) (s : State) (bs : List Block) (evs : List Event) :
    Delivers cx (some (.error (x, s))) bs (.raise x :: evs) := by
  intro n
  cases n <;> rfl

theorem Delivers.dead {r : Result TokPos} {bs bs' : List Block} {evs : List Event}
    (h : Delivers cx r (bs ++ bs') evs) : Delivers cx r bs (.dead bs' :: evs) := by
  intro n
  rw [h n]
  cases n <;> rfl

theorem nextToken_eq (s : State) : nextToken cx s = Result.thenRun (lexerToken cx s) (processToken cx) := by
  rw [nextToken, bind_apply]

theorem nextToken_cons (t : TokPos) (ts ms conds dbc doc er) :
    nextToken cx ⟨t :: ts, ms, conds, dbc, doc, er, []⟩ = processToken cx t ⟨ts, ms, conds, dbc, doc, er, []⟩ := by
  rw [nextToken_eq, lexerToken_cons, thenRun_ok]

theorem delivers_eof (ms conds bs cur doc er) :
    Delivers cx (nextToken cx ⟨[], ms, conds, ⟨bs, cur⟩, doc, er, []⟩) bs [] := by
  intro n
  have h : nextToken cx ⟨[], ms, conds, ⟨bs, cur⟩, doc, er, []⟩ =
      some (.ok ((.eof, cx.eofPos), ⟨[], ms, conds, ⟨bs, cur⟩, doc, er, []⟩)) := by
    rw [nextToken_eq]
    simp only [lexerToken, thenRun_ok]
    rw [processToken.eq_def]
    rfl
  rw [h, thenRun_ok]
  cases n with
  | zero => rfl
  | succ n => simp [afterLines, lineNumber, lineError, error, raise, collect, render]

/-! ## Live tokens -/

theorem render_token (n : Nat) (bs : List Block) (t : TokPos) (st : List Expr) (evs : List Event) :
    render cx n bs (.token t st :: evs) =
      match effect cx t, n with
      | .drop, n => render cx n bs evs
      | .line, n => render cx (n + 1) bs evs
      | .raise x, _ => ([], .raised x)
      | .keep, 0 => (⟨t, currentCondition st, bs⟩ :: (render cx 0 bs evs).1, (render cx 0 bs evs).2)
      | .keep, n + 1 =>
        match lineError t.1 with
        | none => render cx n bs evs
        | some msg => ([], .raised (.error msg)) := by
  cases n <;> rfl

theorem afterLines_zero (r : Result TokPos) : r.thenRun (afterLines cx 0) = r := by
  rcases r with _ | _ | ⟨tk, s⟩ <;> rfl

/-- A live token other than `#error`, by its effect. -/
theorem delivers_token {t : TokPos} (plain : isConditional t.1 = false) (herror : t.1 ≠ .sharp "error")
    {ts ms ex st ds bs cur er} {evs : List Event}
    (h : ∀ doc, Delivers cx (nextToken cx ⟨ts, ms, ⟨ex, st, ds⟩, ⟨bs, cur⟩, doc, er, []⟩) bs evs) (doc) :
    Delivers cx (nextToken cx ⟨t :: ts, ms, ⟨ex, st, ds⟩, ⟨bs, cur⟩, doc, er, []⟩) bs (.token t st :: evs) := by
  intro n
  -- what the call does, by the effect of the token
  have hrun : ∃ doc', nextToken cx ⟨t :: ts, ms, ⟨ex, st, ds⟩, ⟨bs, cur⟩, doc, er, []⟩ =
      match effect cx t with
      | .drop => nextToken cx ⟨ts, ms, ⟨ex, st, ds⟩, ⟨bs, cur⟩, doc', er, []⟩
      | .line => (do lineNumber (← nextToken cx); nextToken cx : M TokPos) ⟨ts, ms, ⟨ex, st, ds⟩, ⟨bs, cur⟩, doc', er,
        []⟩
      | .raise x => some (.error (x, ⟨ts, ms, ⟨ex, st, ds⟩, ⟨bs, cur⟩, doc', er, []⟩))
      | .keep => some (.ok (t, ⟨ts, ms, ⟨ex, st, ds⟩, ⟨bs, cur⟩, doc', er, []⟩)) := by
    rw [nextToken_cons, processToken.eq_def]
    obtain ⟨t, pt⟩ := t
    cases t with
    | comment s =>
      simp only [effect, bind_apply, setDoc]
      split
      · exact ⟨_, rfl⟩
      · exact ⟨doc, rfl⟩
    | commentLine s =>
      refine ⟨doc, ?_⟩
      simp only [effect]
      cases commentCompletion cx pt <;> rfl
    | sharp s =>
      refine ⟨doc, ?_⟩
      simp only [isConditional, Bool.or_eq_false_iff, decide_eq_false_iff_not] at plain
      obtain ⟨⟨⟨h1, h2⟩, h3⟩, h4⟩ := plain
      have h5 : s ≠ "error" := fun h => herror (by rw [h])
      simp only [effect, h1, h2, h3, h4, h5, if_false, checkSharp]
      by_cases hline : s = "line"
      · simp only [hline, if_true]
      · cases cx.moduleAttributes.contains s <;> simp only [hline, if_false, if_true] <;> rfl
    | eof => cases plain
    | _ => exact ⟨doc, rfl⟩
  obtain ⟨doc', hrun⟩ := hrun
  have ht : t.1 ≠ .eof := fun he => by rw [he] at plain; cases plain
  have hn := h doc' n
  rw [hrun, render_token]
  cases he : effect cx t with
  | drop => exact hn
  | raise x => rfl
  | line =>
    refine Eq.trans (congrArg _ ?_) (h doc' (n + 1))
    simp only [bind_apply, thenRun_assoc, afterLines, bind_assoc]
  | keep =>
    cases n with
    | zero =>
      have h0 : deliveries cx ⟨ts, ms, ⟨ex, st, ds⟩, ⟨bs, cur⟩, doc', er, []⟩ = some (render cx 0 bs evs) := by
        rw [deliveries_eq, ← hn, afterLines_zero]
      refine Eq.trans (congrArg _ (afterLines_zero _)) ?_
      show (if t.1 = .eof then _ else _) = _
      rw [if_neg ht, h0]
      rfl
    | succ n =>
      have hn' := h doc' n
      simp only [thenRun_ok, afterLines, bind_apply, lineNumber]
      cases lineError t.1 with
      | none => exact Eq.trans (congrArg _ (bind_apply (nextToken cx) (afterLines cx n) _)) hn'
      | some msg => rfl

/-! ## Live groups -/

/-- What `enter_macro` goes on with, after its condition `c`. -/
def branch (cx : Context) (c : Cond cx) (q : Pos) (ts : List TokPos) (ms : List Pos) (ex st : List Expr)
    (ds : List Nat) (bs cur : List Block) (doc : Option (String × Int)) (er : List ErrorMsg) : Result TokPos :=
  match c.truth with
  | .error x => some (.error (x, ⟨ts.tail, ms, ⟨ex, st, ds⟩, ⟨bs, cur⟩, doc, er, []⟩))
  | .ok true => lexerToken cx ⟨ts, q :: ms, ⟨ex, st, ds⟩, ⟨bs, cur⟩, doc, er, []⟩
  | .ok false => skipTokens cx q true ⟨ts, ms, ⟨ex, st, ds⟩, ⟨bs, opened c.pos st :: cur⟩, doc, er, []⟩

theorem evalCond_apply (c : Cond cx) (s : State) :
    evalCond cx c.expr s =
      match c.truth with
      | .error x => some (.error (x, s))
      | .ok b => some (.ok (b, s)) := by
  unfold evalCond Cond.truth truth
  cases eval cx.Fl cx.env c.expr <;> rfl

section

variable (c : Cond cx) (q q' : Pos) (ts : List TokPos) (ms : List Pos) (ex st g : List Expr) (e : Expr) (d : Nat)
  (ds : List Nat) (bs cur : List Block) (doc : Option (String × Int)) (er : List ErrorMsg)

/-- `enter_macro` once the condition is on the stack. -/
theorem branch_eq :
    (do
      let tk ← lexerToken cx
      if ← evalCond cx c.expr then
        setMstack (q :: (← getMstack))
        pure tk
      else
        openDeadBlock c.pos
        skipTokensLoop cx q true tk : M TokPos) ⟨ts, ms, ⟨ex, st, ds⟩, ⟨bs, cur⟩, doc, er, []⟩ =
      branch cx c q ts ms ex st ds bs cur doc er := by
  unfold branch
  cases ts <;> rcases h : c.truth with _ | _ | _ <;> simp [lexerToken, evalCond_apply, h, skipTokens]
  · rfl
  · rfl

theorem enterMacro_if :
    enterMacro cx true q ⟨c.toks ++ ts, ms, ⟨ex, st, ds⟩, ⟨bs, cur⟩, doc, er, []⟩ =
      branch cx c q ts ms (c.expr :: ex) (c.expr :: st) (1 :: ds) bs cur doc er := by
  rw [enterMacro, ← branch_eq]
  simp only [bind_apply, condition_cond, thenRun_ok, if_true, condIf_apply]

theorem enterMacro_elseif :
    enterMacro cx false q ⟨c.toks ++ ts, ms, ⟨ex, e :: g, d :: ds⟩, ⟨bs, cur⟩, doc, er, []⟩ =
      branch cx c q ts ms (c.expr :: ex) (c.expr :: negate e :: g) ((d + 1) :: ds) bs cur doc er := by
  rw [enterMacro, ← branch_eq]
  simp only [bind_apply, condition_cond, thenRun_ok, Bool.false_eq_true, if_false, condElseif_cons]

theorem nextToken_if :
    nextToken cx ⟨(.sharp "if", q) :: (c.toks ++ ts), ms, ⟨ex, st, ds⟩, ⟨bs, cur⟩, doc, er, []⟩ =
      (branch cx c q ts ms (c.expr :: ex) (c.expr :: st) (1 :: ds) bs cur doc er).thenRun (processToken cx) := by
  rw [nextToken_cons, processToken.eq_def, ← enterMacro_if]
  simp

theorem nextToken_end {cs : List Expr} (h : condEnd.loop d g = .ok cs) :
    nextToken cx ⟨(.sharp "end", q) :: ts, q' :: ms, ⟨ex, e :: g, (d + 1) :: ds⟩, ⟨bs, cur⟩, doc, er, []⟩ =
      nextToken cx ⟨ts, ms, ⟨ex, cs, ds⟩, ⟨bs, cur⟩, doc, er, []⟩ := by
  rw [nextToken_cons, processToken.eq_def]
  simp [condEnd_cons (h := h)]

theorem nextToken_else :
    nextToken cx ⟨(.sharp "else", q) :: ts, q' :: ms, ⟨ex, e :: g, ds⟩, ⟨bs, cur⟩, doc, er, []⟩ =
      Result.thenRun (skipTokens cx q false ⟨ts, ms, ⟨ex, negate e :: g, ds⟩,
        ⟨bs, opened q (negate e :: g) :: cur⟩, doc, er, []⟩) (processToken cx) := by
  rw [nextToken_cons, processToken.eq_def]
  simp

theorem nextToken_elseif :
    nextToken cx ⟨(.sharp "elseif", q) :: (c.toks ++ ts), q' :: ms, ⟨ex, e :: g, d :: ds⟩, ⟨bs, cur⟩, doc, er, []⟩ =
      Result.thenRun (skipTokens cx q false ⟨ts, ms, ⟨c.expr :: ex, c.expr :: negate e :: g, (d + 1) :: ds⟩,
        ⟨bs, opened c.pos (c.expr :: negate e :: g) :: cur⟩, doc, er, []⟩) (processToken cx) := by
  rw [nextToken_cons, processToken.eq_def]
  simp

end

theorem nextToken_error {t : TokPos} (h : t.1 = .sharp "error") (ts ms conds dbc doc er) :
    nextToken cx ⟨t :: ts, ms, conds, dbc, doc, er, []⟩ =
      some (.error (.error (errorDirective (ts.head?.getD (.eof, cx.eofPos)).1),
        ⟨ts.tail, ms, conds, dbc, doc, er, []⟩)) := by
  obtain ⟨_, p⟩ := t
  obtain rfl := h
  rw [nextToken_cons, processToken.eq_def]
  cases ts <;> rfl

/-- Every state with this rest of the file and these stacks delivers the events. -/
def Goes (cx : Context) (k : List TokPos) (ms : List Pos) (st : List Expr) (ds : List Nat) (cur : List Block)
    (er : List ErrorMsg) (evs : List Event) : Prop :=
  ∀ ex bs doc, Delivers cx (nextToken cx ⟨k, ms, ⟨ex, st, ds⟩, ⟨bs, cur⟩, doc, er, []⟩) bs evs

/-- Skipped code is one event, and then the run goes on. -/
theorem delivers_skips {r : Except Exc (List Block)} {res : Result TokPos}
    {f : List Expr → List Block → Result TokPos} {bs : List Block} {evs : List Event} (h : Skips r res f)
    (hnext : ∀ ex bs', Delivers cx ((f ex bs').thenRun (processToken cx)) (bs ++ bs') evs) :
    Delivers cx (res.thenRun (processToken cx)) bs (deadEvent r :: evs) := by
  cases r with
  | error x =>
    obtain ⟨s, rfl⟩ := h
    exact .raise x s bs evs
  | ok bs' =>
    obtain ⟨ex, rfl⟩ := h
    exact .dead (hnext ex bs')

mutual

theorem live_items : ∀ (is : Items cx) {k ms st ds cur er evs}, Goes cx k ms st ds cur er evs →
    Goes cx (is.onto k) ms st ds cur er (is.live st k ++ evs)
  | .nil, k, ms, st, ds, cur, er, evs, h => h
  | .tok t plain rest, k, ms, st, ds, cur, er, evs, h => by
    intro ex bs doc
    have ih := live_items rest h
    by_cases he : t.1 = .sharp "error"
    · simp only [Items.onto, Items.live, List.cons_append, liveToken, he, if_true]
      rw [nextToken_error he]
      exact .raise _ _ bs _
    · simp only [Items.onto, Items.live, List.cons_append, liveToken, he, if_false]
      exact delivers_token plain he (fun doc => ih ex bs doc) doc
  | .group pif c body tail rest, k, ms, st, ds, cur, er, evs, h => by
    intro ex bs doc
    have ih := live_items rest h
    simp only [Items.onto, Items.live, List.append_assoc]
    rw [nextToken_if]
    unfold branch
    cases c.truth with
    | error x => exact .raise x _ bs _
    | ok b =>
      cases b with
      | true =>
        rw [← nextToken_eq]
        rw [List.append_assoc]
        exact live_items body (live_after tail pif (e := c.expr) rfl ih) _ bs doc
      | false =>
        refine delivers_skips (skip_items body pif true _ ms _ _ _ bs _ doc er) fun ex' bs' => ?_
        exact live_test tail pif rfl ih ex' _ doc

theorem live_after : ∀ (tail : Tail cx) (q : Pos) {k ms e g d ds cur er evs} {cs : List Expr},
    condEnd.loop d g = .ok cs → Goes cx k ms cs ds cur er evs →
    Goes cx (tail.onto k) (q :: ms) (e :: g) ((d + 1) :: ds) cur er (tail.after e g ++ evs)
  | .fin pend, q, k, ms, e, g, d, ds, cur, er, evs, cs, hd, h => by
    intro ex bs doc
    simp only [Tail.onto, Tail.after, List.nil_append]
    rw [nextToken_end (h := hd)]
    exact h ex bs doc
  | .els pels body pend, q, k, ms, e, g, d, ds, cur, er, evs, cs, hd, h => by
    intro ex bs doc
    simp only [Tail.onto, Tail.after]
    rw [nextToken_else]
    refine delivers_skips (f := fun ex' bs' => lexerToken cx ⟨k, ms, ⟨ex', cs, ds⟩, ⟨bs ++ bs', cur⟩, doc, er, []⟩)
      ?_ fun ex' bs' => by rw [← nextToken_eq]; exact h ex' _ doc
    refine (skip_items body pels false _ ms ex (negate e :: g) ((d + 1) :: ds) bs _ doc er).bind
      fun ex1 bs1 => ⟨ex1, ?_⟩
    rw [skipTokens_end (h := hd), List.append_assoc]
  | .elif pelif c body tail, q, k, ms, e, g, d, ds, cur, er, evs, cs, hd, h => by
    intro ex bs doc
    simp only [Tail.onto, Tail.after]
    rw [nextToken_elseif]
    refine delivers_skips (f := fun ex' bs' => lexerToken cx ⟨k, ms, ⟨ex', cs, ds⟩, ⟨bs ++ bs', cur⟩, doc, er, []⟩)
      ?_ fun ex' bs' => by rw [← nextToken_eq]; exact h ex' _ doc
    refine (skip_items body pelif false _ ms _ (c.expr :: negate e :: g) ((d + 2) :: ds) bs _ doc er).bind
      fun ex1 bs1 => ?_
    refine (skip_tail tail pelif k ms ex1 c.expr (negate e :: g) (d + 1) ds _ _ cur doc er hd).bind
      fun ex2 bs2 => ⟨ex2, ?_⟩
    rw [List.append_assoc]

theorem live_test : ∀ (tail : Tail cx) (q : Pos) {k ms e g d ds o cur er evs} {cs : List Expr},
    condEnd.loop d g = .ok cs → Goes cx k ms cs ds cur er evs → ∀ ex bs doc,
    Delivers cx (Result.thenRun (skipTokens cx q true
      ⟨tail.onto k, ms, ⟨ex, e :: g, (d + 1) :: ds⟩, ⟨bs, o :: cur⟩, doc, er, []⟩) (processToken cx))
      bs (tail.test e g o k ++ evs)
  | .fin pend, q, k, ms, e, g, d, ds, o, cur, er, evs, cs, hd, h => by
    intro ex bs doc
    simp only [Tail.onto, Tail.test]
    rw [skipTokens_end (h := hd), ← nextToken_eq]
    exact .dead (h ex _ doc)
  | .els pels body pend, q, k, ms, e, g, d, ds, o, cur, er, evs, cs, hd, h => by
    intro ex bs doc
    simp only [Tail.onto, Tail.test]
    rw [skipTokens_else_true, ← nextToken_eq]
    refine .dead (live_items body (fun ex bs doc => ?_) ex _ doc)
    rw [nextToken_end (h := hd)]
    exact h ex bs doc
  | .elif pelif c body tail, q, k, ms, e, g, d, ds, o, cur, er, evs, cs, hd, h => by
    intro ex bs doc
    have hd' : condEnd.loop (d + 1) (negate e :: g) = .ok cs := hd
    simp only [Tail.onto, Tail.test]
    rw [skipTokens_elseif_true, enterMacro_elseif]
    refine .dead ?_
    unfold branch
    cases c.truth with
    | error x => exact .raise x _ _ _
    | ok b =>
      cases b with
      | true =>
        rw [← nextToken_eq]
        simp only [List.append_eq, List.append_assoc]
        exact live_items body (live_after tail pelif hd' h) _ _ doc
      | false =>
        refine delivers_skips (skip_items body pelif true _ ms _ _ _ _ _ doc er) fun ex' bs' => ?_
        exact live_test tail pelif hd' h ex' _ doc

end

/-- The run of `next_token` on a well-nested file delivers the events of the file. -/
theorem deliveries_items (is : Items cx) :
    deliveries cx (.init (is.onto [])) = some (render cx 0 [] (is.live [] [])) := by
  have heof : Goes cx [] [] [] [] [] [] [] := fun ex bs doc => delivers_eof [] _ bs [] doc []
  have h := live_items is heof [] [] none 0
  rw [afterLines_zero, List.append_nil] at h
  rw [deliveries_eq]
  exact h

end EvilHaxe.ParserEntry
