/-
What the events of a well-nested file say. The tokens are those of `selected`; at each of them the
conditions above it are all true, so the current condition is; the condition of a dead block is never
true, and false when all conditions of the file can be evaluated.
-/
import EvilHaxe.ParserEntry.Selection

namespace EvilHaxe.ParserEntry

open EvilHaxe.Syntax ConditionHandler

variable {cx : Context}

/-! ## Tokens -/

/-- The tokens and exceptions of the events. -/
def Event.toks : List Event → List (Except Exc TokPos)
  | [] => []
  | .token t _ :: evs => .ok t :: toks evs
  | .dead _ :: evs => toks evs
  | .raise x :: evs => .error x :: toks evs

theorem Event.toks_append : ∀ evs evs' : List Event, toks (evs ++ evs') = toks evs ++ toks evs'
  | [], _ => rfl
  | .token t _ :: evs, evs' => by
    simp only [List.cons_append, toks, toks_append evs evs']
  | .dead _ :: evs, evs' => toks_append evs evs'
  | .raise x :: evs, evs' => by
    simp only [List.cons_append, toks, toks_append evs evs']

theorem toks_liveEvent (st : List Expr) (r : Except Exc TokPos) (evs : List Event) :
    Event.toks (liveEvent st r :: evs) = r :: Event.toks evs := by
  cases r <;> rfl

theorem toks_deadEvent (r : Except Exc (List Block)) (evs : List Event) :
    Event.toks (deadEvent r :: evs) = raises (r.map fun _ => ()) ++ Event.toks evs := by
  cases r <;> rfl

mutual

theorem map_dead : ∀ (is : Items cx) (st : List Expr), (is.dead st).map (fun _ => ()) = is.skipped
  | .nil, _ => rfl
  | .tok t _ rest, st => by
    simp only [Items.dead, Items.skipped, ← map_dead rest st]
    cases deadToken t <;> rfl
  | .group _ c body tail rest, st => by
    simp only [Items.dead, Items.skipped, ← map_dead body (c.expr :: st), ← map_dead rest st,
      ← map_tail_dead tail c.expr st (opened c.pos (c.expr :: st))]
    cases body.dead (c.expr :: st) with
    | error x => rfl
    | ok bs1 =>
      cases tail.dead c.expr st (opened c.pos (c.expr :: st)) with
      | error x => rfl
      | ok bs2 => cases rest.dead st <;> rfl

theorem map_tail_dead : ∀ (tail : Tail cx) (e : Expr) (g : List Expr) (o : Block),
    (tail.dead e g o).map (fun _ => ()) = tail.skipped
  | .fin _, _, _, _ => rfl
  | .els _ body _, e, g, o => by
    simp only [Tail.dead, Tail.skipped, ← map_dead body (negate e :: g)]
    cases body.dead (negate e :: g) <;> rfl
  | .elif p c body tail, e, g, o => by
    simp only [Tail.dead, Tail.skipped, ← map_dead body (c.expr :: negate e :: g),
      ← map_tail_dead tail c.expr (negate e :: g) (opened c.pos (c.expr :: negate e :: g))]
    cases body.dead (c.expr :: negate e :: g) with
    | error x => rfl
    | ok bs1 => cases tail.dead c.expr (negate e :: g) (opened c.pos (c.expr :: negate e :: g)) <;> rfl

end

theorem toks_after : ∀ (tail : Tail cx) (e : Expr) (g : List Expr),
    Event.toks (tail.after e g) = raises tail.skipped
  | .fin _, _, _ => rfl
  | .els p body pend, e, g => by
    rw [Tail.after, toks_deadEvent, Tail.skipped, ← map_dead body (negate e :: g), Event.toks, List.append_nil]
    cases body.dead (negate e :: g) <;> rfl
  | .elif p c body tail, e, g => by
    rw [Tail.after, toks_deadEvent, ← map_tail_dead (.elif p c body tail) e g (p, e), Event.toks, List.append_nil,
      Tail.dead]
    cases body.dead (c.expr :: negate e :: g) with
    | error x => rfl
    | ok bs1 => cases tail.dead c.expr (negate e :: g) (opened c.pos (c.expr :: negate e :: g)) <;> rfl

mutual

theorem toks_live : ∀ (is : Items cx) (st : List Expr) (k : List TokPos),
    Event.toks (is.live st k) = is.selected k
  | .nil, _, _ => rfl
  | .tok t _ rest, st, k => by
    rw [Items.live, toks_liveEvent, toks_live rest st k, Items.selected]
  | .group _ c body tail rest, st, k => by
    rw [Items.live, Event.toks_append, toks_live rest st k, Items.selected]
    congr 1
    rcases c.truth with x | _ | _
    · rfl
    · rw [toks_deadEvent, map_dead, toks_test tail]
    · rw [Event.toks_append, toks_live body, toks_after]

theorem toks_test : ∀ (tail : Tail cx) (e : Expr) (g : List Expr) (o : Block) (k : List TokPos),
    Event.toks (tail.test e g o k) = tail.selected k
  | .fin _, _, _, _, _ => rfl
  | .els p body pend, e, g, o, k => by
    rw [Tail.test, Event.toks, toks_live body, Tail.selected]
  | .elif p c body tail, e, g, o, k => by
    rw [Tail.test, Event.toks, Tail.selected]
    rcases c.truth with x | _ | _
    · rfl
    · rw [toks_deadEvent, map_dead, toks_test tail]
    · rw [Event.toks_append, toks_live body, toks_after]

end

/-- The exception that ends a run. -/
def End.exception : End → Option Exc
  | .eof _ => none
  | .raised x => some x

theorem deliver_ok (n : Nat) (t : TokPos) (ts : List (Except Exc TokPos)) :
    deliver cx n (.ok t :: ts) =
      match effect cx t, n with
      | .drop, n => deliver cx n ts
      | .line, n => deliver cx (n + 1) ts
      | .raise x, _ => ([], some x)
      | .keep, 0 => (t :: (deliver cx 0 ts).1, (deliver cx 0 ts).2)
      | .keep, n + 1 =>
        match lineError t.1 with
        | none => deliver cx n ts
        | some msg => ([], some (.error msg)) := by
  cases n <;> rfl

theorem render_toks : ∀ (n : Nat) (bs : List Block) (evs : List Event),
    ((render cx n bs evs).1.map Delivery.token, (render cx n bs evs).2.exception) = deliver cx n (Event.toks evs)
  | 0, _, [] => rfl
  | _ + 1, _, [] => rfl
  | n, bs, .dead bs' :: evs => by
    have := render_toks n (bs ++ bs') evs
    cases n <;> exact this
  | n, bs, .raise x :: evs => by cases n <;> rfl
  | n, bs, .token t st :: evs => by
    rw [render_token, Event.toks, deliver_ok]
    cases effect cx t with
    | drop => exact render_toks n bs evs
    | line => exact render_toks (n + 1) bs evs
    | raise x => rfl
    | keep =>
      cases n with
      | zero =>
        obtain ⟨h1, h2⟩ := Prod.mk.inj (render_toks 0 bs evs)
        exact congr (congrArg _ (congrArg (t :: ·) h1)) h2
      | succ n =>
        cases lineError t.1 with
        | none => exact render_toks n bs evs
        | some msg => rfl

/-- The tokens delivered for a well-nested file, up to the end of the file or the first exception, are
those that the recursive meaning of its directives selects. -/
theorem deliveries_selected (cx : Context) (is : Items cx) :
    (deliveries cx (.init (is.onto []))).map (fun r => (r.1.map Delivery.token, r.2.exception)) =
      some (deliver cx 0 (is.selected [])) := by
  rw [deliveries_items, Option.map_some, render_toks, toks_live]

/-! ## Conditions -/

/-- The condition has a truth value. -/
def Evaluates (cx : Context) (e : Expr) : Prop := ∃ b, truth cx.Fl cx.env e = .ok b

def IsTrue (cx : Context) (e : Expr) : Prop := truth cx.Fl cx.env e = .ok true

theorem Evaluates.negate {e : Expr} (h : Evaluates cx e) : Evaluates cx (negate e) := by
  obtain ⟨b, hb⟩ := h
  exact ⟨!b, by rw [truth_negate, hb]; rfl⟩

mutual

/-- The conditions of the items. -/
def Items.conds : Items cx → List (Cond cx)
  | .nil => []
  | .tok _ _ rest => rest.conds
  | .group _ c body tail rest => c :: (body.conds ++ tail.conds ++ rest.conds)

def Tail.conds : Tail cx → List (Cond cx)
  | .fin _ => []
  | .els _ body _ => body.conds
  | .elif _ c body tail => c :: (body.conds ++ tail.conds)

end

/-- The condition of the block is not true, and false if `A` holds. -/
def DeadBlock (cx : Context) (A : Prop) (b : Block) : Prop :=
  ¬ IsTrue cx b.2 ∧ (A → truth cx.Fl cx.env b.2 = .ok false)

/-- One of the conditions is not true, and all can be evaluated if `A` holds. -/
structure DeadStack (cx : Context) (A : Prop) (st : List Expr) : Prop where
  dead : ∃ e ∈ st, ¬ IsTrue cx e
  evaluates : A → ∀ e ∈ st, Evaluates cx e

variable {A : Prop}

theorem DeadStack.cons {st : List Expr} {e : Expr} (h : DeadStack cx A st) (he : A → Evaluates cx e) :
    DeadStack cx A (e :: st) :=
  ⟨h.dead.imp fun _ h => ⟨List.mem_cons_of_mem _ h.1, h.2⟩, fun a => List.forall_mem_cons.2 ⟨he a, h.evaluates a⟩⟩

theorem deadStack_of_false {st : List Expr} {e : Expr} (he : truth cx.Fl cx.env e = .ok false)
    (hst : ∀ e ∈ st, IsTrue cx e) : DeadStack cx A (e :: st) :=
  ⟨⟨e, List.mem_cons_self .., fun h => by rw [IsTrue, he] at h; cases h⟩,
    fun _ => List.forall_mem_cons.2 ⟨⟨false, he⟩, fun e' h' => ⟨true, hst e' h'⟩⟩⟩

/-- A block opened under a dead stack. -/
theorem DeadStack.closed {st : List Expr} (h : DeadStack cx A st) (p p' : Pos) :
    DeadBlock cx A (closed (opened p st) p') := by
  obtain ⟨e, he, hne⟩ := h.dead
  refine ⟨fun ht => hne ((currentCondition_true_iff _ _ st).1 ht e he), fun a => ?_⟩
  obtain ⟨_ | _, hb⟩ := h.evaluates a e he
  · exact currentCondition_false _ _ he hb (h.evaluates a)
  · exact absurd hb hne

theorem bind_eq_ok {α β : Type} {r : Except Exc α} {f : α → Except Exc β} {b : β} (h : r >>= f = .ok b) :
    ∃ a, r = .ok a ∧ f a = .ok b := by
  cases r with
  | error x => cases h
  | ok a => exact ⟨a, rfl, h⟩

mutual

theorem dead_items : ∀ (is : Items cx) {st : List Expr} {bs : List Block}, DeadStack cx A st →
    (A → ∀ c ∈ is.conds, Evaluates cx c.expr) → is.dead st = .ok bs → ∀ b ∈ bs, DeadBlock cx A b
  | .nil, st, bs, _, _, h => by
    cases h
    exact List.forall_mem_nil _
  | .tok t _ rest, st, bs, hst, hA, h => by
    obtain ⟨_, _, h⟩ := bind_eq_ok h
    exact dead_items rest hst hA h
  | .group _ c body tail rest, st, bs, hst, hA, h => by
    obtain ⟨bs1, h1, h⟩ := bind_eq_ok h
    obtain ⟨bs2, h2, h⟩ := bind_eq_ok h
    obtain ⟨bs3, h3, h⟩ := bind_eq_ok h
    cases h
    have hc := fun a => hA a c (List.mem_cons_self ..)
    have hst' := hst.cons hc
    intro b hb
    rcases List.mem_append.1 hb with hb | hb
    · rcases List.mem_append.1 hb with hb | hb
      · exact dead_items body hst' (fun a c' h' => hA a c' (by simp [Items.conds, h'])) h1 b hb
      · exact dead_tail tail hst hc (fun p => hst'.closed c.pos p) (fun a c' h' => hA a c' (by simp [Items.conds, h']))
          h2 b hb
    · exact dead_items rest hst (fun a c' h' => hA a c' (by simp [Items.conds, h'])) h3 b hb

theorem dead_tail : ∀ (tail : Tail cx) {e : Expr} {g : List Expr} {o : Block} {bs : List Block},
    DeadStack cx A g → (A → Evaluates cx e) → (∀ p, DeadBlock cx A (closed o p)) →
    (A → ∀ c ∈ tail.conds, Evaluates cx c.expr) → tail.dead e g o = .ok bs → ∀ b ∈ bs, DeadBlock cx A b
  | .fin p, e, g, o, bs, _, _, ho, _, h => by
    cases h
    exact List.forall_mem_singleton.2 (ho p)
  | .els p body pend, e, g, o, bs, hg, he, ho, hA, h => by
    obtain ⟨bs1, h1, h⟩ := bind_eq_ok h
    cases h
    have hst := hg.cons (fun a => (he a).negate)
    refine List.forall_mem_cons.2 ⟨ho p, List.forall_mem_append.2 ⟨dead_items body hst hA h1, ?_⟩⟩
    exact List.forall_mem_singleton.2 (hst.closed p pend)
  | .elif p c body tail, e, g, o, bs, hg, he, ho, hA, h => by
    obtain ⟨bs1, h1, h⟩ := bind_eq_ok h
    obtain ⟨bs2, h2, h⟩ := bind_eq_ok h
    cases h
    have hc := fun a => hA a c (List.mem_cons_self ..)
    have hg' := hg.cons (fun a => (he a).negate)
    have hst := hg'.cons hc
    refine List.forall_mem_cons.2 ⟨ho p, List.forall_mem_append.2 ⟨?_, ?_⟩⟩
    · exact dead_items body hst (fun a c' h' => hA a c' (by simp [Tail.conds, h'])) h1
    · exact dead_tail tail hg' hc (fun q => hst.closed c.pos q) (fun a c' h' => hA a c' (by simp [Tail.conds, h'])) h2

end

/-- Live tokens have true conditions above them, dead blocks dead ones. -/
def EventOk (cx : Context) (A : Prop) : Event → Prop
  | .token _ st => ∀ e ∈ st, IsTrue cx e
  | .dead bs => ∀ b ∈ bs, DeadBlock cx A b
  | .raise _ => True

theorem eventOk_deadEvent {r : Except Exc (List Block)} (h : ∀ bs, r = .ok bs → ∀ b ∈ bs, DeadBlock cx A b) :
    EventOk cx A (deadEvent r) := by
  cases r with
  | error x => trivial
  | ok bs => exact h bs rfl

/-- After the live branch `e`, its negation is false. -/
theorem DeadStack.negate {e : Expr} {g : List Expr} (he : IsTrue cx e) (hg : ∀ e ∈ g, IsTrue cx e) :
    DeadStack cx A (negate e :: g) :=
  deadStack_of_false (by rw [truth_negate, he]; rfl) hg

theorem after_ok (tail : Tail cx) {e : Expr} {g : List Expr} (he : IsTrue cx e) (hg : ∀ e ∈ g, IsTrue cx e)
    (hA : A → ∀ c ∈ tail.conds, Evaluates cx c.expr) : ∀ ev ∈ tail.after e g, EventOk cx A ev := by
  have hneg : DeadStack cx A (negate e :: g) := .negate he hg
  cases tail with
  | fin p => exact List.forall_mem_nil _
  | els p body pend =>
    refine List.forall_mem_singleton.2 (eventOk_deadEvent fun bs h => ?_)
    obtain ⟨bs1, h1, h⟩ := bind_eq_ok h
    cases h
    exact List.forall_mem_append.2 ⟨dead_items body hneg hA h1, List.forall_mem_singleton.2 (hneg.closed p pend)⟩
  | elif p c body tail =>
    refine List.forall_mem_singleton.2 (eventOk_deadEvent fun bs h => ?_)
    obtain ⟨bs1, h1, h⟩ := bind_eq_ok h
    obtain ⟨bs2, h2, h⟩ := bind_eq_ok h
    cases h
    have hc := fun a => hA a c (List.mem_cons_self ..)
    refine List.forall_mem_append.2 ⟨?_, ?_⟩
    · exact dead_items body (hneg.cons hc) (fun a c' h' => hA a c' (by simp [Tail.conds, h'])) h1
    · exact dead_tail tail hneg hc (fun q => (hneg.cons hc).closed c.pos q)
        (fun a c' h' => hA a c' (by simp [Tail.conds, h'])) h2

mutual

theorem live_ok : ∀ (is : Items cx) {st : List Expr} (k : List TokPos), (∀ e ∈ st, IsTrue cx e) →
    (A → ∀ c ∈ is.conds, Evaluates cx c.expr) → ∀ ev ∈ is.live st k, EventOk cx A ev
  | .nil, _, _, _, _ => List.forall_mem_nil _
  | .tok t _ rest, st, k, hst, hA => by
    refine List.forall_mem_cons.2 ⟨?_, live_ok rest k hst hA⟩
    cases liveToken cx t (rest.onto k) with
    | error x => trivial
    | ok t => exact hst
  | .group _ c body tail rest, st, k, hst, hA => by
    refine List.forall_mem_append.2 ⟨?_, live_ok rest k hst (fun a c' h' => hA a c' (by simp [Items.conds, h']))⟩
    have hbody : A → ∀ c' ∈ body.conds, Evaluates cx c'.expr := fun a c' h' => hA a c' (by simp [Items.conds, h'])
    have htail : A → ∀ c' ∈ tail.conds, Evaluates cx c'.expr := fun a c' h' => hA a c' (by simp [Items.conds, h'])
    rcases hc : c.truth with x | _ | _
    · exact List.forall_mem_singleton.2 trivial
    · have hdead : DeadStack cx A (c.expr :: st) := deadStack_of_false hc hst
      exact List.forall_mem_cons.2 ⟨eventOk_deadEvent fun bs h => dead_items body hdead hbody h,
        test_ok tail _ hc hst (fun p => hdead.closed c.pos p) htail⟩
    · exact List.forall_mem_append.2 ⟨live_ok body _ (List.forall_mem_cons.2 ⟨hc, hst⟩) hbody,
        after_ok tail hc hst htail⟩

theorem test_ok : ∀ (tail : Tail cx) {e : Expr} {g : List Expr} {o : Block} (k : List TokPos),
    truth cx.Fl cx.env e = .ok false → (∀ e ∈ g, IsTrue cx e) → (∀ p, DeadBlock cx A (closed o p)) →
    (A → ∀ c ∈ tail.conds, Evaluates cx c.expr) → ∀ ev ∈ tail.test e g o k, EventOk cx A ev
  | .fin p, e, g, o, k, _, _, ho, _ =>
    List.forall_mem_singleton.2 (List.forall_mem_singleton.2 (ho p))
  | .els p body pend, e, g, o, k, he, hg, ho, hA => by
    have hneg : IsTrue cx (negate e) := by rw [IsTrue, truth_negate, he]; rfl
    exact List.forall_mem_cons.2 ⟨List.forall_mem_singleton.2 (ho p),
      live_ok body _ (List.forall_mem_cons.2 ⟨hneg, hg⟩) hA⟩
  | .elif p c body tail, e, g, o, k, he, hg, ho, hA => by
    have hneg : IsTrue cx (negate e) := by rw [IsTrue, truth_negate, he]; rfl
    have hst : ∀ e' ∈ negate e :: g, IsTrue cx e' := List.forall_mem_cons.2 ⟨hneg, hg⟩
    have hbody : A → ∀ c' ∈ body.conds, Evaluates cx c'.expr := fun a c' h' => hA a c' (by simp [Tail.conds, h'])
    have htail : A → ∀ c' ∈ tail.conds, Evaluates cx c'.expr := fun a c' h' => hA a c' (by simp [Tail.conds, h'])
    refine List.forall_mem_cons.2 ⟨List.forall_mem_singleton.2 (ho p), ?_⟩
    rcases hc : c.truth with x | _ | _
    · exact List.forall_mem_singleton.2 trivial
    · have hdead : DeadStack cx A (c.expr :: negate e :: g) := deadStack_of_false hc hst
      exact List.forall_mem_cons.2 ⟨eventOk_deadEvent fun bs h => dead_items body hdead hbody h,
        test_ok tail _ hc hst (fun q => hdead.closed c.pos q) htail⟩
    · exact List.forall_mem_append.2 ⟨live_ok body _ (List.forall_mem_cons.2 ⟨hc, hst⟩) hbody,
        after_ok tail hc hst htail⟩

end

/-- A delivered token is live: the current condition is true, and the blocks recorded so far are dead. -/
structure DeliveryOk (cx : Context) (A : Prop) (d : Delivery) : Prop where
  live : IsTrue cx d.condition
  dead : ∀ b ∈ d.deadBlocks, DeadBlock cx A b

theorem raised_ok (x : Exc) : (∀ d ∈ ([] : List Delivery), DeliveryOk cx A d) ∧
    ∀ bs', End.raised x = .eof bs' → ∀ b ∈ bs', DeadBlock cx A b :=
  ⟨List.forall_mem_nil _, fun _ h => End.noConfusion h⟩

theorem render_ok : ∀ (n : Nat) (bs : List Block) (evs : List Event), (∀ ev ∈ evs, EventOk cx A ev) →
    (∀ b ∈ bs, DeadBlock cx A b) →
    (∀ d ∈ (render cx n bs evs).1, DeliveryOk cx A d) ∧
      ∀ bs', (render cx n bs evs).2 = .eof bs' → ∀ b ∈ bs', DeadBlock cx A b
  | 0, bs, [], _, hbs => ⟨List.forall_mem_nil _, fun bs' h => End.eof.inj h ▸ hbs⟩
  | _ + 1, _, [], _, _ => raised_ok _
  | n, bs, .dead bs' :: evs, hevs, hbs => by
    obtain ⟨hev, hevs⟩ := List.forall_mem_cons.1 hevs
    have := render_ok n (bs ++ bs') evs hevs (List.forall_mem_append.2 ⟨hbs, hev⟩)
    cases n <;> exact this
  | n, bs, .raise x :: evs, _, _ => by cases n <;> exact raised_ok x
  | n, bs, .token t st :: evs, hevs, hbs => by
    obtain ⟨hev, hevs⟩ := List.forall_mem_cons.1 hevs
    rw [render_token]
    cases effect cx t with
    | drop => exact render_ok n bs evs hevs hbs
    | line => exact render_ok (n + 1) bs evs hevs hbs
    | raise x => exact raised_ok x
    | keep =>
      cases n with
      | zero =>
        obtain ⟨h1, h2⟩ := render_ok 0 bs evs hevs hbs
        exact ⟨List.forall_mem_cons.2 ⟨⟨(currentCondition_true_iff _ _ st).2 hev, hbs⟩, h1⟩, h2⟩
      | succ n =>
        cases lineError t.1 with
        | none => exact render_ok n bs evs hevs hbs
        | some msg => exact raised_ok _

/-- The conditions of a run on a well-nested file: the run is the one the events of the file call for,
where the tokens after a group have the conditions of those before it; at each token delivered the
current condition is true; a dead block's condition is never true, and false if all conditions of the
file can be evaluated. -/
theorem deliveries_conditions (cx : Context) (is : Items cx) :
    ∃ ds e, deliveries cx (.init (is.onto [])) = some (ds, e) ∧ (ds, e) = render cx 0 [] (is.live [] []) ∧
      (∀ d ∈ ds, DeliveryOk cx (∀ c ∈ is.conds, Evaluates cx c.expr) d) ∧
      ∀ bs, e = .eof bs → ∀ b ∈ bs, DeadBlock cx (∀ c ∈ is.conds, Evaluates cx c.expr) b := by
  obtain ⟨h1, h2⟩ := render_ok 0 [] (is.live [] []) (live_ok is [] (List.forall_mem_nil _) id) (List.forall_mem_nil _)
  exact ⟨_, _, deliveries_items is, rfl, h1, h2⟩

/-! ## Two files -/

/-- Only `true` is defined; no condition is parenthesised and no display request is served. -/
def plainContext : Context where
  Fl := ⟨Unit, fun _ => none, fun _ => "", fun _ _ => .eq, fun _ => false⟩
  env := ⟨fun s => if s = "true" then some "1" else none, rfl⟩
  expr ts := .error (.failure, ⟨1, ts⟩)
  inDisplay := false
  inDisplayFile := false
  isCompletion := false
  displayPosition := nullPos
  moduleAttributes := []
  eofPos := ⟨40, 40⟩

/-- The condition `s`. -/
def identCond (s : String) (p : Pos) : Cond plainContext := ⟨[(.const (.ident s), p)], .eConst (.ident s), p,
  fun _ => rfl⟩

/-- The condition `-s`, which `eval` refuses. -/
def negCond (s : String) (p1 p2 : Pos) : Cond plainContext :=
  ⟨[(.unop .neg, p1), (.const (.ident s), p2)], .eUnop .neg .flagPrefix (.eConst (.ident s)), punion p1 p2,
    fun _ => rfl⟩

/-- `#if a #foo #end x` -/
def unknownDirective : Items plainContext :=
  .group ⟨0, 3⟩ (identCond "a" ⟨4, 5⟩) (.tok (.sharp "foo", ⟨6, 10⟩) rfl .nil) (.fin ⟨11, 15⟩)
    (.tok (.const (.ident "x"), ⟨16, 17⟩) rfl .nil)

/-- An unknown directive in dead code ends the run, although no condition raises and the live code goes
on after it. -/
theorem unknown_directive_raises :
    (deliveries plainContext (.init (unknownDirective.onto []))).map (fun r => (r.1.map Delivery.token,
      r.2.exception)) =
      some ([], some (.error (sharpError "foo"))) ∧
    ∀ c ∈ unknownDirective.conds, Evaluates plainContext c.expr := by
  refine ⟨?_, List.forall_mem_singleton.2 ⟨false, rfl⟩⟩
  rw [deliveries_items]
  rfl

/-- `#if true #elseif -a #end` -/
def unreachedCondition : Items plainContext :=
  .group ⟨0, 3⟩ (identCond "true" ⟨4, 8⟩) .nil
    (.elif ⟨9, 16⟩ (negCond "a" ⟨17, 18⟩ ⟨18, 19⟩) .nil (.fin ⟨20, 24⟩)) .nil

/-- The condition of a dead block need not be false: that of a branch that was not reached raises. -/
theorem unreached_condition_raises :
    ∃ b, deliveries plainContext (.init (unreachedCondition.onto [])) = some ([], .eof [b]) ∧
      truth plainContext.Fl plainContext.env b.2 = .error (.error (.custom "Invalid condition expression")) :=
  ⟨(⟨19, 20⟩, conjoin (.eUnop .neg .flagPrefix (.eConst (.ident "a"))) (.eUnop .not .flagPrefix (.eConst (.ident
    "true")))),
    deliveries_items unreachedCondition, rfl⟩

end EvilHaxe.ParserEntry
