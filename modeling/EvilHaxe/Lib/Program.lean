/-
Programs with failures and errors over a signature of operations, and their runs.

A program asks for operations and goes on by what they return. A failure of an operation is seen by
the program, which may try something else; an error is not, and ends the program. A system gives each
operation a meaning: a primitive step, a program over the same operations (so systems are recursive),
or another operation with its outcome looked at afterwards, which is where errors can be caught. A run
need not end.

Three rules carry properties from single operations to runs: the invariant rule and the termination rule
for one system, and the rule that two systems agree where they agree on all that is called.
-/
import Mathlib.Data.List.Basic

universe u v

/-- A call written as an operation. A recursive call of a partial fixpoint that is written so keeps no position of the
text, so that the definition is the same term wherever the text stands. -/
abbrev Function.call {α : Sort u} {β : Sort v} (f : α → β) (a : α) : β := f a

namespace Lib

/-- The operations, and what each returns. -/
structure Sig where
  Op : Type
  Res : Op → Type

/-- The operations of both. -/
abbrev Sig.sum (S T : Sig) : Sig where
  Op := S.Op ⊕ T.Op
  Res := fun
    | .inl o => S.Res o
    | .inr o => T.Res o

inductive Outcome (ε α : Type) where
  | ok (a : α)
  | fail
  | error (e : ε)

inductive Prog (S : Sig) (ε α : Type) where
  | pure (a : α)
  | fail
  | raise (e : ε)
  | call (o : S.Op) (k : Option (S.Res o) → Prog S ε α)

/-- How operations act on states. -/
abbrev Handler (S : Sig) (ε σ : Type) := (o : S.Op) → σ → Option (Outcome ε (S.Res o) × σ)

variable {S T : Sig} {ε σ α β γ : Type}

/-! ## Programs -/

namespace Prog

/-- Go on by `k` after `p`, by `q` if `p` fails. -/
def alt (p : Prog S ε α) (k : α → Prog S ε β) (q : Prog S ε β) : Prog S ε β :=
  match p with
  | .pure a => k a
  | .fail => q
  | .raise e => .raise e
  | .call o c => .call o fun r => (c r).alt k q

instance : Monad (Prog S ε) where
  pure := .pure
  bind p k := p.alt k .fail

/-- One operation. -/
def op (o : S.Op) : Prog S ε (S.Res o) :=
  .call o fun
    | some a => .pure a
    | none => .fail

/-- A failure of `p` is the error `e`. -/
def orRaise (p : Prog S ε α) (e : ε) : Prog S ε α := p.alt .pure (.raise e)

/-- The value of `p`, or that it failed. -/
def optional (p : Prog S ε α) : Prog S ε (Option α) := p.alt (fun a => .pure (some a)) (.pure none)

/-- The program with a program for each of its operations. -/
def interp (f : (o : S.Op) → Prog T ε (S.Res o)) : Prog S ε α → Prog T ε α
  | .pure a => .pure a
  | .fail => .fail
  | .raise e => .raise e
  | .call o k => (f o).alt (fun r => (k (some r)).interp f) ((k none).interp f)

/-- The program as one over more operations. -/
def inl : Prog S ε α → Prog (S.sum T) ε α
  | .pure a => .pure a
  | .fail => .fail
  | .raise e => .raise e
  | .call o k => .call (S := S.sum T) (.inl o) fun r => (k r).inl

/-! ## Runs -/

def run (H : Handler S ε σ) : Prog S ε α → σ → Option (Outcome ε α × σ)
  | .pure a, s => some (.ok a, s)
  | .fail, s => some (.fail, s)
  | .raise e, s => some (.error e, s)
  | .call o k, s =>
    match H o s with
    | none => none
    | some (.ok a, s) => (k (some a)).run H s
    | some (.fail, s) => (k none).run H s
    | some (.error e, s) => some (.error e, s)

/-- What follows a run: `k` after a value, `q` after a failure. -/
def andThen (r : Option (Outcome ε α × σ)) (k : α → σ → Option (Outcome ε β × σ))
    (q : σ → Option (Outcome ε β × σ)) : Option (Outcome ε β × σ) :=
  match r with
  | none => none
  | some (.ok a, s) => k a s
  | some (.fail, s) => q s
  | some (.error e, s) => some (.error e, s)

variable {H : Handler S ε σ}

@[simp] theorem run_pure (a : α) (s : σ) : (pure a : Prog S ε α).run H s = some (.ok a, s) := rfl

@[simp] theorem run_pure' (a : α) (s : σ) : (Prog.pure a : Prog S ε α).run H s = some (.ok a, s) := rfl

@[simp] theorem run_fail (s : σ) : (Prog.fail : Prog S ε α).run H s = some (.fail, s) := rfl

@[simp] theorem run_raise (e : ε) (s : σ) : (Prog.raise e : Prog S ε α).run H s = some (.error e, s) :=
  rfl

theorem run_call (o : S.Op) (k : Option (S.Res o) → Prog S ε α) (s : σ) :
    (Prog.call o k).run H s = andThen (H o s) (fun a s => (k (some a)).run H s) fun s => (k none).run H s := by
  simp only [run, andThen]
  rcases H o s with _ | ⟨_ | _ | _, _⟩ <;> rfl

@[simp] theorem andThen_ok (a : α) (s : σ) (k : α → σ → Option (Outcome ε β × σ))
    (q : σ → Option (Outcome ε β × σ)) : andThen (some (.ok a, s)) k q = k a s := rfl

@[simp] theorem andThen_fail (s : σ) (k : α → σ → Option (Outcome ε β × σ))
    (q : σ → Option (Outcome ε β × σ)) : andThen (some (.fail, s)) k q = q s := rfl

@[simp] theorem andThen_error (e : ε) (s : σ) (k : α → σ → Option (Outcome ε β × σ))
    (q : σ → Option (Outcome ε β × σ)) : andThen (some (.error e, s)) k q = some (.error e, s) := rfl

/-- The three ways a run goes on. -/
theorem andThen_eq_some {r : Option (Outcome ε α × σ)} {k : α → σ → Option (Outcome ε β × σ)}
    {q : σ → Option (Outcome ε β × σ)} {t : Outcome ε β × σ} (h : andThen r k q = some t) :
    (∃ a s, r = some (.ok a, s) ∧ k a s = some t) ∨ (∃ s, r = some (.fail, s) ∧ q s = some t) ∨
      ∃ e s, r = some (.error e, s) ∧ t = (.error e, s) := by
  rcases r with _ | ⟨a | _ | e, s⟩
  · cases h
  · exact .inl ⟨a, s, rfl, h⟩
  · exact .inr (.inl ⟨s, rfl, h⟩)
  · cases h; exact .inr (.inr ⟨e, s, rfl, rfl⟩)

theorem andThen_assoc (r : Option (Outcome ε α × σ)) (k : α → σ → Option (Outcome ε β × σ))
    (q : σ → Option (Outcome ε β × σ)) (k' : β → σ → Option (Outcome ε γ × σ))
    (q' : σ → Option (Outcome ε γ × σ)) :
    andThen (andThen r k q) k' q' =
      andThen r (fun a s => andThen (k a s) k' q') fun s => andThen (q s) k' q' := by
  rcases r with _ | ⟨_ | _ | _, _⟩ <;> rfl

@[simp] theorem run_op (o : S.Op) (s : σ) : (op o : Prog S ε (S.Res o)).run H s = H o s := by
  rw [op, run_call]
  rcases H o s with _ | ⟨_ | _ | _, _⟩ <;> rfl

@[simp] theorem run_alt (p : Prog S ε α) (k : α → Prog S ε β) (q : Prog S ε β) (s : σ) :
    (p.alt k q).run H s = andThen (p.run H s) (fun a s => (k a).run H s) fun s => q.run H s := by
  induction p generalizing s with
  | pure _ => rfl
  | fail => rfl
  | raise _ => rfl
  | call o c ih =>
    rw [alt, run_call, run_call, andThen_assoc]
    simp only [ih]

@[simp] theorem run_bind (p : Prog S ε α) (k : α → Prog S ε β) (s : σ) :
    (p >>= k).run H s = andThen (p.run H s) (fun a s => (k a).run H s) fun s => some (.fail, s) :=
  run_alt p k .fail s

@[simp] theorem run_orRaise (p : Prog S ε α) (e : ε) (s : σ) :
    (p.orRaise e).run H s =
      andThen (p.run H s) (fun a s => some (.ok a, s)) fun s => some (.error e, s) :=
  run_alt p .pure (.raise e) s

@[simp] theorem run_optional (p : Prog S ε α) (s : σ) :
    p.optional.run H s =
      andThen (p.run H s) (fun a s => some (.ok (some a), s)) fun s => some (.ok none, s) :=
  run_alt p _ _ s

@[simp] theorem interp_pure (f : (o : S.Op) → Prog T ε (S.Res o)) (a : α) :
    (pure a : Prog S ε α).interp f = .pure a := rfl

@[simp] theorem run_inl {H : Handler (S.sum T) ε σ} (p : Prog S ε α) (s : σ) :
    p.inl.run H s = p.run (fun o => H (.inl o)) s := by
  induction p generalizing s with
  | pure _ => rfl
  | fail => rfl
  | raise _ => rfl
  | call o k ih => simp only [inl, run_call, ih]

/-- The programs for the operations are run where the operations were. -/
theorem run_interp {H : Handler T ε σ} (f : (o : S.Op) → Prog T ε (S.Res o)) (p : Prog S ε α) (s : σ) :
    (p.interp f).run H s = p.run (fun o => (f o).run H) s := by
  induction p generalizing s with
  | pure _ => rfl
  | fail => rfl
  | raise _ => rfl
  | call o k ih => simp only [interp, run_alt, run_call, ih]

end Prog

/-! ## Systems -/

/-- The meaning of an operation. -/
inductive Meaning (S : Sig) (ε σ : Type) (o : S.Op) where
  | prim (f : σ → Outcome ε (S.Res o) × σ)
  | prog (p : Prog S ε (S.Res o))
  | after (o' : S.Op) (f : Outcome ε (S.Res o') → σ → Outcome ε (S.Res o) × σ)

abbrev System (S : Sig) (ε σ : Type) := (o : S.Op) → Meaning S ε σ o

def Meaning.run {o : S.Op} (H : Handler S ε σ) : Meaning S ε σ o → σ → Option (Outcome ε (S.Res o) × σ)
  | .prim f, s => some (f s)
  | .prog p, s => p.run H s
  | .after o' f, s => (H o' s).map fun r => f r.1 r.2

/-- Every result of `H` is one of `H'`. -/
def Below (H H' : Handler S ε σ) : Prop := ∀ o s r, H o s = some r → H' o s = some r

theorem Prog.run_mono {H H' : Handler S ε σ} (h : Below H H') :
    ∀ (p : Prog S ε α) (s : σ) {r : Outcome ε α × σ}, p.run H s = some r → p.run H' s = some r
  | .pure _, _, _, hr => hr
  | .fail, _, _, hr => hr
  | .raise _, _, _, hr => hr
  | .call o k, s, r, hr => by
    simp only [run] at hr ⊢
    cases ho : H o s with
    | none => rw [ho] at hr; cases hr
    | some q =>
      rw [ho] at hr
      rw [h o s q ho]
      obtain ⟨_ | _ | _, s'⟩ := q
      · exact run_mono h _ s' hr
      · exact run_mono h _ s' hr
      · exact hr

theorem Meaning.run_mono {o : S.Op} {H H' : Handler S ε σ} (h : Below H H') (m : Meaning S ε σ o) (s : σ)
    {r : Outcome ε (S.Res o) × σ} (hr : m.run H s = some r) : m.run H' s = some r := by
  cases m with
  | prim f => exact hr
  | prog p => exact p.run_mono h s hr
  | after o' f =>
    obtain ⟨q, hq, rfl⟩ := Option.map_eq_some_iff.1 hr
    exact Option.map_eq_some_iff.2 ⟨q, h o' s q hq, rfl⟩

/-- The runs of a system. -/
def exec (M : System S ε σ) (o : S.Op) (s : σ) : Option (Outcome ε (S.Res o) × σ) :=
  (M o).run (exec.call M) s
partial_fixpoint monotonicity by
  intro H H' hle M o s
  have hbelow : Below (H M) (H' M) := by
    intro o s r hr
    have hos := hle M o s
    generalize H M o s = x at hos hr
    generalize H' M o s = y at hos
    cases hos with
    | bot => cases hr
    | refl => exact hr
  beta_reduce
  generalize hx : (M o).run (H.call M) s = x
  generalize hy : (M o).run (H'.call M) s = y
  cases x with
  | none => exact .bot
  | some r =>
    obtain rfl := hy ▸ (M o).run_mono hbelow s hx
    exact .refl

theorem exec_eq (M : System S ε σ) (o : S.Op) (s : σ) : exec M o s = (M o).run (exec M) s := by
  rw [exec]

section

variable {M : System S ε σ} {o : S.Op}

theorem exec_prim {f : σ → Outcome ε (S.Res o) × σ} (h : M o = .prim f) (s : σ) :
    exec M o s = some (f s) := by
  rw [exec_eq, h]; rfl

theorem exec_prog {p : Prog S ε (S.Res o)} (h : M o = .prog p) (s : σ) :
    exec M o s = p.run (exec M) s := by
  rw [exec_eq, h]; rfl

theorem exec_after {o' : S.Op} {f : Outcome ε (S.Res o') → σ → Outcome ε (S.Res o) × σ}
    (h : M o = .after o' f) (s : σ) :
    exec M o s = (exec M o' s).map fun r => f r.1 r.2 := by
  rw [exec_eq, h]; rfl

end

/-- Induction on runs: what one unfolding of the operations keeps holds of every run that ends. -/
theorem exec_induct (M : System S ε σ) (P : (o : S.Op) → σ → Outcome ε (S.Res o) × σ → Prop)
    (h : ∀ H : Handler S ε σ, (∀ o s r, H o s = some r → P o s r) →
      ∀ o s r, (M o).run H s = some r → P o s r) :
    ∀ o s r, exec M o s = some r → P o s r := by
  intro o s r hr
  refine exec.partial_correctness (fun M' o s r => M' = M → P o s r) ?_ M o s r hr rfl
  rintro H hH M' o s r hstep rfl
  exact h (H M') (fun o s r hr => hH M' o s r hr rfl) o s r hstep

/-! ## Calls -/

/-- The run of the program from a state asks for the operation `o'` in the state `s'`. -/
inductive Prog.Asks (H : Handler S ε σ) (o' : S.Op) (s' : σ) : Prog S ε α → σ → Prop where
  | here {k : Option (S.Res o') → Prog S ε α} : Asks H o' s' (.call o' k) s'
  | ok {o : S.Op} {k : Option (S.Res o) → Prog S ε α} {s s1 : σ} {a : S.Res o} :
      H o s = some (.ok a, s1) → Asks H o' s' (k (some a)) s1 → Asks H o' s' (.call o k) s
  | fail {o : S.Op} {k : Option (S.Res o) → Prog S ε α} {s s1 : σ} :
      H o s = some (.fail, s1) → Asks H o' s' (k none) s1 → Asks H o' s' (.call o k) s

namespace Prog

variable {H : Handler S ε σ} {o' : S.Op} {s' : σ}

@[simp] theorem not_asks_pure (a : α) (s : σ) : ¬ (Prog.pure a : Prog S ε α).Asks H o' s' s := nofun

@[simp] theorem not_asks_fail (s : σ) : ¬ (Prog.fail : Prog S ε α).Asks H o' s' s := nofun

@[simp] theorem not_asks_raise (e : ε) (s : σ) : ¬ (Prog.raise e : Prog S ε α).Asks H o' s' s := nofun

theorem asks_call_iff (o : S.Op) (k : Option (S.Res o) → Prog S ε α) (s : σ) :
    (Prog.call o k).Asks H o' s' s ↔ (o = o' ∧ s = s') ∨ (∃ a s1, H o s = some (.ok a, s1) ∧ (k (some a)).Asks H o' s' s1) ∨
      ∃ s1, H o s = some (.fail, s1) ∧ (k none).Asks H o' s' s1 := by
  constructor
  · intro h
    cases h with
    | here => exact .inl ⟨rfl, rfl⟩
    | ok h1 h => exact .inr (.inl ⟨_, _, h1, h⟩)
    | fail h1 h => exact .inr (.inr ⟨_, h1, h⟩)
  · rintro (⟨rfl, rfl⟩ | ⟨a, s1, h1, h⟩ | ⟨s1, h1, h⟩)
    · exact .here
    · exact .ok h1 h
    · exact .fail h1 h

@[simp] theorem asks_op_iff (o : S.Op) (s : σ) : (op o : Prog S ε (S.Res o)).Asks H o' s' s ↔ o = o' ∧ s = s' := by
  simp [op, asks_call_iff]

/-- What `p.alt k q` asks for, `p` does, or what goes on after it. -/
theorem asks_alt_iff (p : Prog S ε α) (k : α → Prog S ε β) (q : Prog S ε β) (s : σ) :
    (p.alt k q).Asks H o' s' s ↔ p.Asks H o' s' s ∨ (∃ a s1, p.run H s = some (.ok a, s1) ∧ (k a).Asks H o' s' s1) ∨
      ∃ s1, p.run H s = some (.fail, s1) ∧ q.Asks H o' s' s1 := by
  induction p generalizing s with
  | pure a => simp [alt]
  | fail => simp [alt]
  | raise e => simp [alt]
  | call o c ih =>
    simp only [alt, asks_call_iff, ih, run]
    rcases H o s with _ | ⟨a | _ | e, s1⟩
    · simp
    · simp [or_assoc]
    · simp [or_assoc]
    · simp

theorem asks_bind_iff (p : Prog S ε α) (k : α → Prog S ε β) (s : σ) :
    (p >>= k).Asks H o' s' s ↔
      p.Asks H o' s' s ∨ ∃ a s1, p.run H s = some (.ok a, s1) ∧ (k a).Asks H o' s' s1 := by
  refine (asks_alt_iff p k .fail s).trans (or_congr_right ?_)
  simp

/-- What a program asks for that has programs for its operations, one of them does. -/
theorem exists_of_asks_interp {f : (o : S.Op) → Prog T ε (S.Res o)} {H : Handler T ε σ} {o' : T.Op} {p : Prog S ε α}
    {s : σ} (h : (p.interp f).Asks H o' s' s) : ∃ o s1, (f o).Asks H o' s' s1 := by
  induction p generalizing s with
  | pure a => cases h
  | fail => cases h
  | raise e => cases h
  | call o k ih =>
    rcases (asks_alt_iff (f o) _ _ s).1 h with h | ⟨a, s1, -, h⟩ | ⟨s1, -, h⟩
    · exact ⟨o, s, h⟩
    · exact ih (some a) h
    · exact ih none h

theorem asks_inl_iff {H : Handler (S.sum T) ε σ} {o' : (S.sum T).Op} (p : Prog S ε α) (s : σ) :
    p.inl.Asks H o' s' s ↔ ∃ o, .inl o = o' ∧ p.Asks (fun o => H (.inl o)) o s' s := by
  induction p generalizing s with
  | pure a => simp [inl]
  | fail => simp [inl]
  | raise e => simp [inl]
  | call o k ih =>
    simp only [inl, asks_call_iff, ih]
    constructor
    · rintro (⟨rfl, rfl⟩ | ⟨a, s1, h1, o1, ho, h⟩ | ⟨s1, h1, o1, ho, h⟩)
      · exact ⟨o, rfl, .inl ⟨rfl, rfl⟩⟩
      · exact ⟨o1, ho, .inr (.inl ⟨a, s1, h1, h⟩)⟩
      · exact ⟨o1, ho, .inr (.inr ⟨s1, h1, h⟩)⟩
    · rintro ⟨o1, rfl, ⟨rfl, rfl⟩ | ⟨a, s1, h1, h⟩ | ⟨s1, h1, h⟩⟩
      · exact .inl ⟨rfl, rfl⟩
      · exact .inr (.inl ⟨a, s1, h1, o1, rfl, h⟩)
      · exact .inr (.inr ⟨s1, h1, o1, rfl, h⟩)

end Prog

/-- The run of an operation from a state comes to the operation `o'` in the state `s'`. -/
inductive Calls (M : System S ε σ) (o' : S.Op) (s' : σ) : S.Op → σ → Prop where
  | self : Calls M o' s' o' s'
  | prog {o o1 : S.Op} {s s1 : σ} {p : Prog S ε (S.Res o)} :
      M o = .prog p → p.Asks (exec M) o1 s1 s → Calls M o' s' o1 s1 → Calls M o' s' o s
  | after {o o1 : S.Op} {s : σ} {f : Outcome ε (S.Res o1) → σ → Outcome ε (S.Res o) × σ} :
      M o = .after o1 f → Calls M o' s' o1 s → Calls M o' s' o s

/-- A primitive operation comes to no other. -/
theorem Calls.prim {M : System S ε σ} {o o' : S.Op} {s s' : σ} {f : σ → Outcome ε (S.Res o) × σ} (h : M o = .prim f)
    (hc : Calls M o' s' o s) : o' = o ∧ s' = s := by
  cases hc with
  | self => exact ⟨rfl, rfl⟩
  | prog hm => rw [h] at hm; cases hm
  | after hm => rw [h] at hm; cases hm

/-- What a program comes to, unless it is its own operation. -/
theorem Calls.asked {M : System S ε σ} {o o' : S.Op} {s s' : σ} {p : Prog S ε (S.Res o)} (h : M o = .prog p)
    (hc : Calls M o' s' o s) :
    (o' = o ∧ s' = s) ∨ ∃ o1 s1, p.Asks (exec M) o1 s1 s ∧ Calls M o' s' o1 s1 := by
  cases hc with
  | self => exact .inl ⟨rfl, rfl⟩
  | prog hm ha hc =>
    rw [h] at hm
    cases hm
    exact .inr ⟨_, _, ha, hc⟩
  | after hm => rw [h] at hm; cases hm

theorem Calls.trans {M : System S ε σ} {o o1 o2 : S.Op} {s s1 s2 : σ} (h : Calls M o1 s1 o s) (h' : Calls M o2 s2 o1 s1) :
    Calls M o2 s2 o s := by
  induction h with
  | self => exact h'
  | prog hm ha _ ih => exact .prog hm ha ih
  | after hm _ ih => exact .after hm ih

/-- A run of the program by `H`, along which it asks for the same operations in the same states by `H₁`; a second handler
that has their results has the run's. -/
theorem Prog.run_asked {H H₁ H₂ : Handler S ε σ} (p : Prog S ε α) :
    ∀ {s : σ} {r : Outcome ε α × σ}, p.run H s = some r →
      (∀ o s1 r1, p.Asks H₁ o s1 s → H o s1 = some r1 → H₁ o s1 = some r1 ∧ H₂ o s1 = some r1) → p.run H₂ s = some r := by
  induction p with
  | pure a => exact fun hr _ => hr
  | fail => exact fun hr _ => hr
  | raise e => exact fun hr _ => hr
  | call o k ih =>
    intro s r hr h
    simp only [Prog.run] at hr ⊢
    cases ho : H o s with
    | none =>
      rw [ho] at hr
      cases hr
    | some q =>
      rw [ho] at hr
      obtain ⟨h₁, h₂⟩ := h o s q .here ho
      rw [h₂]
      obtain ⟨a | _ | e, s1⟩ := q
      · exact ih (some a) hr fun o' s' r' ha => h o' s' r' (.ok h₁ ha)
      · exact ih none hr fun o' s' r' ha => h o' s' r' (.fail h₁ ha)
      · exact hr

/-- The two systems give the operation the same results in a state, as far as the second has results at all. -/
structure Agree (M M' : System S ε σ) (o : S.Op) (s : σ) : Prop where
  forth : ∀ r, (M o).run (exec M') s = some r → (M' o).run (exec M') s = some r
  back : ∀ H : Handler S ε σ, Below H (exec M') → ∀ r, (M' o).run H s = some r → (M o).run H s = some r

theorem Agree.of_eq {M M' : System S ε σ} {o : S.Op} {s : σ} (h : M o = M' o) : Agree M M' o s :=
  ⟨fun _ hr => h ▸ hr, fun _ _ _ hr => h ▸ hr⟩

section

variable {M M' : System S ε σ}

theorem exec_forth {o : S.Op} {s : σ} {r : Outcome ε (S.Res o) × σ} (hr : exec M o s = some r)
    (h : ∀ o' s', Calls M o' s' o s → Agree M M' o' s') : exec M' o s = some r := by
  refine (exec_induct M (fun o s r => exec M o s = some r ∧
    ((∀ o' s', Calls M o' s' o s → Agree M M' o' s') → exec M' o s = some r)) ?_ o s r hr).2 h
  intro H hH o s r hr
  have hbelow : Below H (exec M) := fun o s r h => (hH o s r h).1
  refine ⟨?_, fun h => ?_⟩
  · rw [exec_eq]
    exact (M o).run_mono hbelow s hr
  · rw [exec_eq]
    refine (h o s .self).forth r ?_
    cases hm : M o with
    | prim f =>
      rw [hm] at hr
      exact hr
    | prog p =>
      rw [hm] at hr
      refine p.run_asked hr fun o1 s1 r1 ha h1 => ⟨hbelow o1 s1 r1 h1, (hH o1 s1 r1 h1).2 fun o' s' hc => h o' s' ?_⟩
      exact .prog hm ha hc
    | after o1 f =>
      rw [hm] at hr
      obtain ⟨q, hq, rfl⟩ := Option.map_eq_some_iff.1 hr
      exact Option.map_eq_some_iff.2 ⟨q, (hH o1 s q hq).2 fun o' s' hc => h o' s' (.after hm hc), rfl⟩

theorem exec_back {o : S.Op} {s : σ} {r : Outcome ε (S.Res o) × σ} (hr : exec M' o s = some r)
    (h : ∀ o' s', Calls M o' s' o s → Agree M M' o' s') : exec M o s = some r := by
  refine (exec_induct M' (fun o s r => exec M' o s = some r ∧
    ((∀ o' s', Calls M o' s' o s → Agree M M' o' s') → exec M o s = some r)) ?_ o s r hr).2 h
  intro H hH o s r hr
  have hbelow : Below H (exec M') := fun o s r h => (hH o s r h).1
  refine ⟨?_, fun h => ?_⟩
  · rw [exec_eq]
    exact (M' o).run_mono hbelow s hr
  · have hr' := (h o s .self).back H hbelow r hr
    rw [exec_eq]
    cases hm : M o with
    | prim f =>
      rw [hm] at hr'
      exact hr'
    | prog p =>
      rw [hm] at hr'
      have hasked : ∀ o1 s1 r1, p.Asks (exec M) o1 s1 s → H o1 s1 = some r1 → exec M o1 s1 = some r1 :=
        fun o1 s1 r1 ha h1 => (hH o1 s1 r1 h1).2 fun o' s' hc => h o' s' (.prog hm ha hc)
      exact p.run_asked hr' fun o1 s1 r1 ha h1 => ⟨hasked o1 s1 r1 ha h1, hasked o1 s1 r1 ha h1⟩
    | after o1 f =>
      rw [hm] at hr'
      obtain ⟨q, hq, rfl⟩ := Option.map_eq_some_iff.1 hr'
      exact Option.map_eq_some_iff.2 ⟨q, (hH o1 s q hq).2 fun o' s' hc => h o' s' (.after hm hc), rfl⟩

/-- The two systems run an operation alike if they agree on all that a run of the first one comes to. -/
theorem exec_congr {o : S.Op} {s : σ} (h : ∀ o' s', Calls M o' s' o s → Agree M M' o' s') :
    exec M' o s = exec M o s :=
  Option.ext fun _ => ⟨fun hr => exec_back hr h, fun hr => exec_forth hr h⟩

end

/-! ## The invariant rule -/

/-- What relates the states around an operation: `Inv` around those that return or fail, `Err` around
those that end in an error. -/
structure Invariant (σ : Type) where
  Inv : σ → σ → Prop
  Err : σ → σ → Prop
  refl : ∀ s, Inv s s
  trans : ∀ {s s' s''}, Inv s s' → Inv s' s'' → Inv s s''
  err : ∀ {s s'}, Inv s s' → Err s s'
  inv_err : ∀ {s s' s''}, Inv s s' → Err s' s'' → Err s s''

namespace Invariant

def Holds (I : Invariant σ) (s : σ) : Outcome ε α × σ → Prop
  | (.error _, s') => I.Err s s'
  | (_, s') => I.Inv s s'

variable {I : Invariant σ}

theorem Holds.trans {s s' : σ} {r : Outcome ε α × σ} (h : I.Inv s s') (hr : I.Holds s' r) :
    I.Holds s r := by
  obtain ⟨_ | _ | _, _⟩ := r
  · exact I.trans h hr
  · exact I.trans h hr
  · exact I.inv_err h hr

/-- A run that starts `r` and goes on from there. -/
theorem holds_andThen {s : σ} {r : Option (Outcome ε α × σ)} {k : α → σ → Option (Outcome ε β × σ)}
    {q : σ → Option (Outcome ε β × σ)} {t : Outcome ε β × σ} (hr : ∀ x, r = some x → I.Holds s x)
    (hk : ∀ a s' t, k a s' = some t → I.Holds s' t) (hq : ∀ s' t, q s' = some t → I.Holds s' t)
    (h : Prog.andThen r k q = some t) : I.Holds s t := by
  rcases r with _ | ⟨_ | _ | _, s'⟩
  · cases h
  · exact Holds.trans (hr _ rfl) (hk _ _ _ h)
  · exact Holds.trans (hr _ rfl) (hq _ _ h)
  · cases h; exact hr _ rfl

/-- The program keeps the invariant when its operations do. -/
theorem run_holds {H : Handler S ε σ} (hH : ∀ o s r, H o s = some r → I.Holds s r)
    (p : Prog S ε α) : ∀ s r, p.run H s = some r → I.Holds s r := by
  induction p with
  | pure a => rintro s r ⟨⟩; exact I.refl s
  | fail => rintro s r ⟨⟩; exact I.refl s
  | raise e => rintro s r ⟨⟩; exact I.err (I.refl s)
  | call o k ih =>
    intro s r h
    rw [Prog.run_call] at h
    exact holds_andThen (hH o s) (fun a => ih (some a)) (ih none) h

/-- The states in which the program asks for operations. -/
theorem asks_inv {H : Handler S ε σ} (hH : ∀ o s r, H o s = some r → I.Holds s r) {p : Prog S ε α} {o' : S.Op}
    {s s' : σ} (h : p.Asks H o' s' s) : I.Inv s s' := by
  induction h with
  | here => exact I.refl _
  | ok ho _ ih => exact I.trans (hH _ _ _ ho) ih
  | fail ho _ ih => exact I.trans (hH _ _ _ ho) ih

variable {M : System S ε σ}

/-- The system keeps the invariant when its primitive operations do, and what looks at an outcome. -/
theorem exec_holds (hprim : ∀ o f, M o = .prim f → ∀ s, I.Holds s (f s))
    (hafter : ∀ o o' f, M o = .after o' f → ∀ s r, I.Holds s r → I.Holds s (f r.1 r.2)) :
    ∀ o s r, exec M o s = some r → I.Holds s r := by
  refine exec_induct M (fun _ s r => I.Holds s r) fun H hH o s r hr => ?_
  cases hm : M o with
  | prim f =>
    rw [hm] at hr
    cases hr
    exact hprim o f hm s
  | prog p =>
    rw [hm] at hr
    exact run_holds hH p s r hr
  | after o' f =>
    rw [hm] at hr
    obtain ⟨q, hq, rfl⟩ := Option.map_eq_some_iff.1 hr
    exact hafter o o' f hm s q (hH o' s q hq)

/-- The states that a run comes to. -/
theorem calls_inv (hM : ∀ o s r, exec M o s = some r → I.Holds s r) {o o' : S.Op} {s s' : σ} (h : Calls M o' s' o s) :
    I.Inv s s' := by
  induction h with
  | self => exact I.refl _
  | prog _ ha _ ih => exact I.trans (asks_inv hM ha) ih
  | after _ _ ih => exact ih

end Invariant

/-! ## The termination rule -/

/-- A program ends if the operations that it asks for do. -/
theorem Prog.run_isSome {H : Handler S ε σ} (p : Prog S ε α) :
    ∀ {s : σ}, (∀ o s', p.Asks H o s' s → (H o s').isSome) → (p.run H s).isSome := by
  induction p with
  | pure a => exact fun _ => rfl
  | fail => exact fun _ => rfl
  | raise e => exact fun _ => rfl
  | call o k ih =>
    intro s h
    rw [Prog.run_call]
    obtain ⟨⟨_ | _ | _, s'⟩, hr⟩ := Option.isSome_iff_exists.1 (h o s .here)
    · rw [hr]
      exact ih _ fun o' s'' ha => h o' s'' (.ok hr ha)
    · rw [hr]
      exact ih _ fun o' s'' ha => h o' s'' (.fail hr ha)
    · rw [hr]
      rfl

/-- A system's operation ends in every state if what it asks for is smaller in a well-founded order. -/
theorem exec_isSome {κ : Type} {r : κ → κ → Prop} (hr : WellFounded r) (M : System S ε σ) (m : S.Op → σ → κ)
    (hprog : ∀ o p, M o = .prog p → ∀ s o' s', p.Asks (exec M) o' s' s → r (m o' s') (m o s))
    (hafter : ∀ o o' f, M o = .after o' f → ∀ s, r (m o' s) (m o s)) : ∀ o s, (exec M o s).isSome := by
  have h : ∀ k o s, m o s = k → (exec M o s).isSome := by
    intro k
    induction k using hr.induction with
    | h k ih =>
      rintro o s rfl
      cases hm : M o with
      | prim f =>
        rw [exec_prim hm]
        rfl
      | prog p =>
        rw [exec_prog hm]
        exact p.run_isSome fun o' s' ha => ih _ (hprog o p hm s o' s' ha) o' s' rfl
      | after o' f =>
        rw [exec_after hm, Option.isSome_map]
        exact ih _ (hafter o o' f hm s) o' s rfl
  exact fun o s => h _ o s rfl

end Lib
