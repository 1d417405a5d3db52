/-
One evaluation lemma for each operation of the grammar and for the small parsers built from them.
-/
import EvilHaxe.Grammar.System

namespace EvilHaxe.Grammar

open EvilHaxe.Syntax EvilHaxe.Evil Lib

variable {σ α β : Type} {cx : Settings} {hooks : Hooks σ}

/-- A program of the grammar, run. -/
abbrev runs (cx : Settings) (hooks : Hooks σ) (p : P α) (s : State σ) : Option (Outcome Exc α × State σ) :=
  Prog.run (S := sig) (fun o => exec (grammar cx hooks) (.inl o)) p s

/-- A program that may call mods, run. -/
abbrev fullRuns (cx : Settings) (hooks : Hooks σ) (p : F σ α) (s : State σ) :
    Option (Outcome Exc α × State σ) :=
  Prog.run (exec (grammar cx hooks)) p s

section

variable (s : State σ)

@[simp] theorem runs_pure (a : α) : runs cx hooks (pure a : P α) s = some (.ok a, s) := rfl

@[simp] theorem runs_bind (p : P α) (k : α → P β) :
    runs cx hooks (p >>= k) s =
      Prog.andThen (runs cx hooks p s) (fun a s => runs cx hooks (k a) s) fun s => some (.fail, s) :=
  Prog.run_bind p k s

@[simp] theorem runs_alt (p : P α) (k : α → P β) (q : P β) :
    runs cx hooks (alt p k q) s =
      Prog.andThen (runs cx hooks p s) (fun a s => runs cx hooks (k a) s) fun s => runs cx hooks q s :=
  Prog.run_alt p k q s

@[simp] theorem runs_must (p : P α) :
    runs cx hooks (must p) s =
      Prog.andThen (runs cx hooks p s) (fun a s => some (.ok a, s))
        fun s => some (.error (.streamError ""), s) :=
  Prog.run_orRaise p _ s

@[simp] theorem runs_popt (p : P α) :
    runs cx hooks (popt p) s =
      Prog.andThen (runs cx hooks p s) (fun a s => some (.ok (some a), s)) fun s => some (.ok none, s) :=
  Prog.run_optional p s

@[simp] theorem runs_fail : runs cx hooks (fail : P α) s = some (.fail, s) := rfl

@[simp] theorem runs_raise (e : Exc) : runs cx hooks (raise e : P α) s = some (.error e, s) := rfl

@[simp] theorem runs_nt (t : NT) : runs cx hooks (nt t) s = parse cx hooks t s := Prog.run_op _ s

@[simp] theorem runs_expr : runs cx hooks (expr : P Expr) s = parse cx hooks .expr s := Prog.run_op _ s

@[simp] theorem runs_secureExpr : runs cx hooks (secureExpr : P Expr) s = parse cx hooks .secureExpr s :=
  Prog.run_op _ s

@[simp] theorem runs_exprNext (e : Expr) (pmax : Int) :
    runs cx hooks (exprNext e pmax : P Expr) s = parse cx hooks (.exprNext e pmax) s := Prog.run_op _ s

theorem parse_hook (h : Hooked) : parse cx hooks (.hook h) s = fullRuns cx hooks (hookBody cx hooks h) s := by
  rw [parse, exec]; rfl

@[simp] theorem fullRuns_plain (p : P α) : fullRuns cx hooks (plain p) s = runs cx hooks p s :=
  Prog.run_inl p s

@[simp] theorem fullRuns_hooked_nil (recode : α → Except Exc α) (p : P α) :
    fullRuns cx hooks (hooked cx recode [] p) s = runs cx hooks p s :=
  fullRuns_plain s p

@[simp] theorem fullRuns_bind (p : F σ α) (k : α → F σ β) :
    fullRuns cx hooks (p >>= k) s =
      Prog.andThen (fullRuns cx hooks p s) (fun a s => fullRuns cx hooks (k a) s) fun s => some (.fail, s) :=
  Prog.run_bind p k s

@[simp] theorem fullRuns_alt (p : F σ α) (k : α → F σ β) (q : F σ β) :
    fullRuns cx hooks (p.alt k q) s =
      Prog.andThen (fullRuns cx hooks p s) (fun a s => fullRuns cx hooks (k a) s) fun s => fullRuns cx hooks q s :=
  Prog.run_alt p k q s

@[simp] theorem fullRuns_note (e : Note) : fullRuns cx hooks (note e) s = some (.ok (), s.note e) :=
  (Prog.run_op _ s).trans (by rw [exec_eq]; rfl)

/-- A parser that does not ask the mods. -/
theorem parse_plain {t : NT} {p : P t.Res} (h : body cx (hookBody cx hooks) t = plain p) :
    parse cx hooks t s = runs cx hooks p s := by
  rw [parse, exec_eq, ← fullRuns_plain, ← h]; rfl

@[simp] theorem runs_recover (t : NT) (catches : Exc → Bool) :
    runs cx hooks (recover t catches) s =
      (parse cx hooks t s).map fun r => afterTry catches r.1 r.2 :=
  (Prog.run_op _ s).trans (by rw [exec_eq]; rfl)

@[simp] theorem runs_peek : runs cx hooks peek s = some (.ok (s.peek cx), s) :=
  (Prog.run_op _ s).trans (by rw [exec_eq]; rfl)

@[simp] theorem runs_junk : runs cx hooks junk s = some (.ok (), s.junk cx) :=
  (Prog.run_op _ s).trans (by rw [exec_eq]; rfl)

@[simp] theorem runs_lastToken : runs cx hooks lastToken s = some (.ok s.last, s) :=
  (Prog.run_op _ s).trans (by rw [exec_eq]; rfl)

@[simp] theorem runs_noteBinop (op : Binop) (e1 e2 : Expr) :
    runs cx hooks (noteBinop op e1 e2) s = some (.ok (), s.note (.binop op e1 e2)) :=
  (Prog.run_op _ s).trans (by rw [exec_eq]; rfl)

@[simp] theorem runs_serror : runs cx hooks (serror : P α) s = some (.error (.streamError ""), s) := rfl

@[simp] theorem runs_ite {c : Prop} [Decidable c] (p q : P α) :
    runs cx hooks (if c then p else q) s = if c then runs cx hooks p s else runs cx hooks q s := by
  split <;> rfl

/-! ## Tokens -/

@[simp] theorem runs_accept (t : Token) :
    runs cx hooks (accept t) s =
      if (s.peek cx).1 = t then some (.ok (s.peek cx).2, s.junk cx) else some (.fail, s) := by
  simp [accept]

@[simp] theorem runs_acceptAt (t : Token) (p : Pos) :
    runs cx hooks (acceptAt t p) s =
      if (s.peek cx).1 = t ∧ p.pmax = (s.peek cx).2.pmin then some (.ok (s.peek cx).2, s.junk cx)
      else some (.fail, s) := by
  simp [acceptAt]

end

/-- A program of the grammar asks for the operation `o` in the state `s'`. -/
abbrev asks (cx : Settings) (hooks : Hooks σ) (o : Op) (s' : State σ) (p : P α) (s : State σ) : Prop :=
  Prog.Asks (S := sig) (fun o => exec (grammar cx hooks) (.inl o)) o s' p s

section

variable {o : Op} {s s' : State σ}

/-- An alternative that its first token rules out is only peeked at. -/
theorem asks_accept_other {t : Token} (h : (s.peek cx).1 ≠ t) (k : Pos → P α) (q : P α) :
    asks cx hooks o s' (alt (accept t) k q) s ↔ (o = .peek ∧ s' = s) ∨ asks cx hooks o s' q s := by
  have hpeek : asks cx hooks o s' (accept t) s ↔ o = .peek ∧ s' = s := by
    refine (Prog.asks_bind_iff (S := sig) peek _ s).trans ?_
    constructor
    · rintro (hp | ⟨a, s1, hr, ha⟩)
      · obtain ⟨rfl, rfl⟩ := (Prog.asks_op_iff (S := sig) .peek s).1 hp
        exact ⟨rfl, rfl⟩
      · cases (runs_peek s).symm.trans hr
        have hfail : asks cx hooks o s' (if (s.peek cx).1 = t then do junk; pure (s.peek cx).2 else fail) s := ha
        rw [if_neg h] at hfail
        exact absurd hfail (Prog.not_asks_fail s)
    · rintro ⟨rfl, rfl⟩
      exact .inl ((Prog.asks_op_iff (S := sig) .peek s').2 ⟨rfl, rfl⟩)
  have hrun : runs cx hooks (accept t) s = some (.fail, s) := by rw [runs_accept, if_neg h]
  refine (Prog.asks_alt_iff (S := sig) (accept t) k q s).trans (or_congr hpeek ?_)
  constructor
  · rintro (⟨a, s1, hr, -⟩ | ⟨s1, hr, ha⟩)
    · cases hrun.symm.trans hr
    · cases hrun.symm.trans hr
      exact ha
  · exact fun ha => .inr ⟨s, hrun, ha⟩

end

/-- The next token and what is left after it. -/
theorem peek_cons {s : State σ} {t : Token × Pos} {ts : TokenList} (h : s.toks = t :: ts) :
    s.peek cx = t := by
  rw [State.peek, h]; rfl

@[simp] theorem junk_toks (s : State σ) : (s.junk cx).toks = s.toks.tail := rfl

theorem junk_length {s : State σ} {t : Token} (h : (s.peek cx).1 = t) (ht : t ≠ .eof) :
    (s.junk cx).toks.length < s.toks.length := by
  rw [junk_toks, List.length_tail]
  cases hs : s.toks with
  | nil =>
    rw [State.peek, hs] at h
    exact absurd h.symm ht
  | cons t ts => simp

@[simp] theorem junk_user (s : State σ) : (s.junk cx).user = s.user := rfl

@[simp] theorem junk_trace (s : State σ) : (s.junk cx).trace = s.trace := rfl

@[simp] theorem junk_last (s : State σ) : (s.junk cx).last = s.peek cx := rfl

@[simp] theorem note_toks (s : State σ) (e : Note) : (s.note e).toks = s.toks := rfl

@[simp] theorem note_user (s : State σ) (e : Note) : (s.note e).user = s.user := rfl

@[simp] theorem note_trace (s : State σ) (e : Note) : (s.note e).trace = s.trace ++ [e] := rfl

end EvilHaxe.Grammar
