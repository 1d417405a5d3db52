/-
Which statements of a block the `on_expr` hooks are asked about, with the stream at their first token.

`parse_block_elt` asks them, unless it reads that token itself. The first statement of a block is another
matter: `block1` has read its first token, if an object could start with it, before it is known that no
`:` follows.
-/
import EvilHaxe.Evil.TokenStream
import EvilHaxe.Grammar.Chains

namespace EvilHaxe.Evil

open EvilHaxe.Syntax EvilHaxe.Grammar Lib

variable {σ α β : Type} {cx : Settings} {hooks : Hooks σ}

/-! ## Reading on -/

/-- A measure of what is left of a file: less after every token, and no more after an XML literal. -/
structure Progress (cx : Settings) where
  left : TokenList → Nat
  tail : ∀ t ts, left ts < left (t :: ts)
  lexXml : ∀ p ts xml ts', cx.lexXml p ts = .ok (xml, ts') → left ts' ≤ left ts

namespace Progress

variable (m : Progress cx)

def shrinks (σ : Type) : Invariant (State σ) where
  Inv s s' := m.left s'.toks ≤ m.left s.toks
  Err s s' := m.left s'.toks ≤ m.left s.toks
  refl _ := Nat.le_refl _
  trans h h' := Nat.le_trans h' h
  err h := h
  inv_err h h' := Nat.le_trans h' h

variable {m}

theorem holds_iff {s : State σ} {r : Outcome Exc α × State σ} :
    (m.shrinks σ).Holds s r ↔ m.left r.2.toks ≤ m.left s.toks := by
  obtain ⟨_ | _ | _, _⟩ := r <;> rfl

theorem junk_le (s : State σ) : m.left (s.junk cx).toks ≤ m.left s.toks := by
  rw [junk_toks]
  cases s.toks with
  | nil => exact Nat.le_refl _
  | cons t ts => exact Nat.le_of_lt (m.tail t ts)

theorem junk_lt {s : State σ} {t : Token} (h : (s.peek cx).1 = t) (ht : t ≠ .eof) :
    m.left (s.junk cx).toks < m.left s.toks := by
  rw [junk_toks]
  cases hs : s.toks with
  | nil =>
    rw [State.peek, hs] at h
    exact absurd h.symm ht
  | cons t ts => exact m.tail t ts

/-- No parser and no callback puts anything back. -/
theorem exec_shrinks (o : (fullSig σ).Op) (s : State σ) (r : Outcome Exc ((fullSig σ).Res o) × State σ)
    (h : exec (grammar cx hooks) o s = some r) : (m.shrinks σ).Holds s r := by
  refine Invariant.exec_holds ?_ ?_ o s r h
  · rintro (o | o) f hf s
    · rw [holds_iff]
      cases o with
      | junk => cases hf; exact junk_le s
      | handleXmlLiteral p1 =>
        cases hf
        rw [handleXml]
        split
        · next xml toks hx => exact m.lexXml p1 s.toks xml toks hx
        · exact Nat.le_refl _
      | nt t => cases hf
      | recover t catches => cases hf
      | _ => cases hf; exact Nat.le_refl _
    · rw [holds_iff]
      cases o <;> cases hf <;> exact Nat.le_refl _
  · rintro (o | o) o' f hf s r hr
    · rw [holds_iff] at hr ⊢
      cases o with
      | recover t catches =>
        cases hf
        obtain ⟨x, s'⟩ := r
        cases x with
        | ok a => exact hr
        | fail => exact hr
        | error e =>
          rw [afterTry]
          split <;> exact hr
      | _ => cases hf
    · cases o <;> cases hf

theorem fullRuns_le {p : F σ α} {s : State σ} {r : Outcome Exc α × State σ} (h : fullRuns cx hooks p s = some r) :
    m.left r.2.toks ≤ m.left s.toks :=
  holds_iff.1 (Invariant.run_holds exec_shrinks p s r h)

theorem runs_le {p : P α} {s : State σ} {r : Outcome Exc α × State σ} (h : runs cx hooks p s = some r) :
    m.left r.2.toks ≤ m.left s.toks :=
  holds_iff.1 (Invariant.run_holds (fun o => exec_shrinks (.inl o)) p s r h)

theorem asks_le {p : P α} {o : Op} {s s' : State σ} (h : asks cx hooks o s' p s) :
    m.left s'.toks ≤ m.left s.toks :=
  Invariant.asks_inv (I := m.shrinks σ) (fun o => exec_shrinks (.inl o)) h

theorem calls_le {o o' : (fullSig σ).Op} {s s' : State σ} (h : Calls (grammar cx hooks) o' s' o s) :
    m.left s'.toks ≤ m.left s.toks :=
  Invariant.calls_inv (I := m.shrinks σ) exec_shrinks h

end Progress

/-! ## The statements of a block -/

/-- The constant that `block1` reads a token as, before it looks for the `:` of an object. -/
def word : Token → Option Constant
  | .const (.ident name) => some (.ident name)
  | .dollar name => some (.ident ("$" ++ name))
  | .const (.string name qs) => some (.string name qs)
  | _ => none

/-- The tokens that `parse_block_elt` reads itself. -/
def readsItself : Token → Bool
  | .kwd .kwVar | .kwd .kwFinal | .kwd .kwInline | .kwd .kwStatic | .binop .opLt => true
  | _ => false

/-- What `block_with_pos'` catches. -/
def caught (cx : Settings) (e : Exc) : Bool := cx.inDisplayFile && (isStreamError e || blockWithPos'.isError e)

section

variable (cx : Settings) (hooks : Hooks σ)

/-- The state that `block_with_pos'` goes on from, after it has parsed a statement with `f`. -/
inductive Resumes (f : NT) (s : State σ) : State σ → Prop where
  | ok {e : f.Res} {s1 : State σ} :
      exec (grammar cx hooks) (.inl (.recover f (caught cx))) s = some (.ok (.ok e), s1) → Resumes f s s1
  | streamError {msg : String} {s1 s2 : State σ} :
      exec (grammar cx hooks) (.inl (.recover f (caught cx))) s = some (.ok (.error (.streamError msg)), s1) →
        runs cx hooks (handleStreamError cx msg) s1 = some (.ok (), s2) → Resumes f s s2
  | error {e : Exc} {s1 : State σ} : isStreamError e = false →
      exec (grammar cx hooks) (.inl (.recover f (caught cx))) s = some (.ok (.error e), s1) → Resumes f s s1

/-- In the block that opens at `b`, from the state `s` after its `{`: the statement `i` starts in the state
`s0`, and is parsed with `f` from the state `s1` on. -/
inductive Statement (b : Pos) (s : State σ) : Nat → NT → State σ → State σ → Prop where
  | word {c : Constant} {s1 : State σ} : word (s.peek cx).1 = some c → ((s.junk cx).peek cx).1 ≠ .dblDot →
      fullRuns cx hooks (onBlockStart cx hooks b) (s.junk cx) = some (.ok (), s1) →
        Statement b s 0 (.block2Elt c (s.peek cx).2) s s1
  | first {s1 : State σ} : word (s.peek cx).1 = none →
      fullRuns cx hooks (onBlockStart cx hooks b) s = some (.ok (), s1) →
        Statement b s 0 (.parseBlockElt .braces) s1 s1
  | next {i : Nat} {f : NT} {s0 s1 s2 : State σ} : Statement b s i f s0 s1 → Resumes cx hooks f s1 s2 →
      Statement b s (i + 1) (.parseBlockElt .braces) s2 s2

end

/-! ## The parse of a block comes to its statements -/

/-- What a parser comes to through an operation that it asks for. -/
theorem calls_nt {t : NT} {p : P t.Res} (hp : body cx (hookBody cx hooks) t = plain p) {o : Op} {s s' : State σ}
    (h : asks cx hooks o s' p s) : Calls (grammar cx hooks) (.inl o) s' (.inl (.nt t)) s := by
  refine .prog (congrArg Meaning.prog hp) ?_ .self
  exact (Prog.asks_inl_iff p s).2 ⟨o, rfl, h⟩

theorem asks_nt (t : NT) (s : State σ) : asks cx hooks (.nt t) s (nt t) s :=
  (Prog.asks_op_iff (S := sig) _ _).2 ⟨rfl, rfl⟩

theorem calls_recover {t : NT} {catches : Exc → Bool} (s : State σ) :
    Calls (grammar cx hooks) (.inl (.nt t)) s (.inl (.recover t catches)) s :=
  .after rfl .self

section

variable {body : Body} {acc : List Expr} {f : NT} (hf : f.Res = Expr) {s s' : State σ}

theorem asks_statement : asks cx hooks (.recover f (caught cx)) s (blockWithPos' cx body acc f hf) s :=
  (Prog.asks_alt_iff (S := sig) _ _ _ _).2 (.inl ((Prog.asks_op_iff (S := sig) _ _).2 ⟨rfl, rfl⟩))

theorem asks_rest (body : Body) (acc : List Expr) (h : Resumes cx hooks f s s') :
    ∃ acc', asks cx hooks (.nt (.block body acc')) s' (blockWithPos' cx body acc f hf) s := by
  have hnt : ∀ acc', asks cx hooks (.nt (.block body acc')) s' (nt (.block body acc')) s' := fun _ => asks_nt _ _
  have hrun : ∀ {r}, exec (grammar cx hooks) (.inl (.recover f (caught cx))) s = some r →
      runs cx hooks (recover f (caught cx)) s = some r := fun hr => (Prog.run_op _ s).trans hr
  cases h with
  | ok hr => exact ⟨_, (Prog.asks_alt_iff (S := sig) _ _ _ _).2 (.inr (.inl ⟨_, _, hrun hr, hnt _⟩))⟩
  | streamError hr hmsg =>
    refine ⟨acc, (Prog.asks_alt_iff (S := sig) _ _ _ _).2 (.inr (.inl ⟨_, _, hrun hr, ?_⟩))⟩
    exact (Prog.asks_bind_iff (S := sig) _ _ _).2 (.inr ⟨_, _, hmsg, hnt acc⟩)
  | @error e s1 he hr =>
    refine ⟨acc, (Prog.asks_alt_iff (S := sig) _ _ _ _).2 (.inr (.inl ⟨_, _, hrun hr, ?_⟩))⟩
    cases e with
    | streamError msg => cases he
    | _ => exact hnt acc

end

/-- The run of a block goes on with its other statements. -/
def GoesOn (cx : Settings) (hooks : Hooks σ) (b : Pos) (s : State σ) (f : NT) (s1 : State σ) : Prop :=
  Calls (grammar cx hooks) (.inl (.nt f)) s1 (.inl (.nt (.braces b))) s ∧
    ∀ s2, Resumes cx hooks f s1 s2 →
      ∃ acc, Calls (grammar cx hooks) (.inl (.nt (.block .braces acc))) s2 (.inl (.nt (.braces b))) s

theorem goesOn_block {b : Pos} {s s1 : State σ} {acc : List Expr}
    (h : Calls (grammar cx hooks) (.inl (.nt (.block .braces acc))) s1 (.inl (.nt (.braces b))) s) :
    GoesOn cx hooks b s (.parseBlockElt .braces) s1 := by
  constructor
  · exact h.trans ((calls_nt rfl (asks_statement rfl)).trans (calls_recover s1))
  · intro s2 hres
    obtain ⟨acc', ha⟩ := asks_rest rfl .braces acc hres
    exact ⟨acc', h.trans (calls_nt rfl ha)⟩

/-- What the list of statements asks for, once the hooks for the start of the block have run. -/
theorem asks_blockOf {b : Pos} {p : P (List Expr)} {o : Op} {s s1 s' : State σ}
    (hstart : fullRuns cx hooks (onBlockStart cx hooks b) s = some (.ok (), s1)) (h : asks cx hooks o s' p s1) :
    Prog.Asks (exec (grammar cx hooks)) (.inl o) s' (blockOf cx hooks b p) s := by
  refine (Prog.asks_bind_iff _ _ _).2 (.inr ⟨(), s1, hstart, ?_⟩)
  exact (Prog.asks_bind_iff _ _ _).2 (.inl ((Prog.asks_inl_iff p s1).2 ⟨o, rfl, h⟩))

theorem calls_braces {b : Pos} {o : Op} {s s' : State σ}
    (h : Prog.Asks (exec (grammar cx hooks)) (.inl o) s' (block1 cx hooks b) s) :
    Calls (grammar cx hooks) (.inl o) s' (.inl (.nt (.braces b))) s :=
  .prog rfl ((Prog.asks_alt_iff _ _ _ _).2 (.inl h)) .self

theorem asks_block2 {b : Pos} {name : String} {qs : QuoteStatus} {c : Constant} {p : Pos} {o : Op} {s s1 s' : State σ}
    (hcolon : (s.peek cx).1 ≠ .dblDot)
    (hstart : fullRuns cx hooks (onBlockStart cx hooks b) s = some (.ok (), s1))
    (h : asks cx hooks o s' (blockWithPos' cx .braces [] (.block2Elt c p) rfl) s1) :
    Prog.Asks (exec (grammar cx hooks)) (.inl o) s' (block2 cx hooks b name qs c p) s := by
  have hfail : fullRuns cx hooks (plain (accept .dblDot)) s = some (.fail, s) := by
    rw [fullRuns_plain, runs_accept, if_neg hcolon]
  exact (Prog.asks_alt_iff _ _ _ _).2 (.inr (.inr ⟨s, hfail, asks_blockOf hstart h⟩))

/-- An identifier or a `$` name. -/
theorem asks_block1_name {b : Pos} {name : String} {s s1 s' : State σ} {o : Op}
    (hname : runs cx hooks dollarIdent s = some (.ok (name, (s.peek cx).2), s.junk cx))
    (hcolon : ((s.junk cx).peek cx).1 ≠ .dblDot)
    (hstart : fullRuns cx hooks (onBlockStart cx hooks b) (s.junk cx) = some (.ok (), s1))
    (h : asks cx hooks o s' (blockWithPos' cx .braces [] (.block2Elt (.ident name) (s.peek cx).2) rfl) s1) :
    Prog.Asks (exec (grammar cx hooks)) (.inl o) s' (block1 cx hooks b) s := by
  refine (Prog.asks_alt_iff _ _ _ _).2 (.inr (.inl ⟨_, _, (fullRuns_plain s _).trans hname, ?_⟩))
  exact asks_block2 hcolon hstart h

/-- What `block1` asks for behind an identifier. -/
theorem asks_block1_other {b : Pos} {s s' : State σ} {o : Op} (hname : runs cx hooks dollarIdent s = some (.fail, s))
    {q : F σ Expr}
    (hq : (match s.peek cx with
      | (.const (.string name qs), p) => do
        plain junk
        block2 cx hooks b name .doubleQuotes (.string name qs) p
      | _ => blockOf cx hooks b (nt (.block .braces []))) = q)
    (h : Prog.Asks (exec (grammar cx hooks)) (.inl o) s' q s) :
    Prog.Asks (exec (grammar cx hooks)) (.inl o) s' (block1 cx hooks b) s := by
  refine (Prog.asks_alt_iff _ _ _ _).2 (.inr (.inr ⟨s, (fullRuns_plain s _).trans hname, ?_⟩))
  refine (Prog.asks_bind_iff _ _ _).2 (.inr ⟨s.peek cx, s, (fullRuns_plain s _).trans (runs_peek s), ?_⟩)
  subst hq
  exact h

/-- A word that no `:` follows is the start of the first statement. -/
theorem asks_block1_word {b : Pos} {c : Constant} {o : Op} {s s1 s' : State σ} (hw : word (s.peek cx).1 = some c)
    (hcolon : ((s.junk cx).peek cx).1 ≠ .dblDot)
    (hstart : fullRuns cx hooks (onBlockStart cx hooks b) (s.junk cx) = some (.ok (), s1))
    (h : asks cx hooks o s' (blockWithPos' cx .braces [] (.block2Elt c (s.peek cx).2) rfl) s1) :
    Prog.Asks (exec (grammar cx hooks)) (.inl o) s' (block1 cx hooks b) s := by
  obtain ⟨t, p, hp⟩ : ∃ t p, s.peek cx = (t, p) := ⟨_, _, rfl⟩
  rw [hp] at hw
  unfold word at hw
  split at hw
  · next name ht =>
    cases hw
    obtain rfl : t = .const (.ident name) := ht
    exact asks_block1_name (by simp [dollarIdent, hp]) hcolon hstart h
  · next name ht =>
    cases hw
    obtain rfl : t = .dollar name := ht
    exact asks_block1_name (by simp [dollarIdent, hp]) hcolon hstart h
  · next name qs ht =>
    cases hw
    obtain rfl : t = .const (.string name qs) := ht
    refine asks_block1_other (by simp [dollarIdent, hp]) (by rw [hp]) ?_
    refine (Prog.asks_bind_iff _ _ _).2 (.inr ⟨(), s.junk cx, (fullRuns_plain s _).trans (runs_junk s), ?_⟩)
    rw [hp] at h
    exact asks_block2 hcolon hstart h
  · cases hw

/-- Any other token is left to `parse_block_elt`. -/
theorem asks_block1_none {b : Pos} {o : Op} {s s1 s' : State σ} (hw : word (s.peek cx).1 = none)
    (hstart : fullRuns cx hooks (onBlockStart cx hooks b) s = some (.ok (), s1))
    (h : asks cx hooks o s' (nt (.block .braces [])) s1) :
    Prog.Asks (exec (grammar cx hooks)) (.inl o) s' (block1 cx hooks b) s := by
  obtain ⟨t, p, hp⟩ : ∃ t p, s.peek cx = (t, p) := ⟨_, _, rfl⟩
  rw [hp] at hw
  have hname : runs cx hooks dollarIdent s = some (.fail, s) := by
    simp only [dollarIdent, runs_bind, runs_peek, Prog.andThen_ok, hp]
    split
    · next heq => cases heq; cases hw
    · next heq => cases heq; cases hw
    · rfl
  refine asks_block1_other (b := b) (q := blockOf cx hooks b (nt (.block .braces []))) hname ?_ (asks_blockOf hstart h)
  rw [hp]
  split
  · next heq => cases heq; cases hw
  · rfl

/-- The run of a block comes to each of its statements. -/
theorem Statement.goesOn {b : Pos} {s : State σ} {i : Nat} {f : NT} {s0 s1 : State σ}
    (h : Statement cx hooks b s i f s0 s1) : GoesOn cx hooks b s f s1 := by
  induction h with
  | word hw hcolon hstart =>
    constructor
    · exact (calls_braces (asks_block1_word hw hcolon hstart (asks_statement rfl))).trans (calls_recover _)
    · intro s2 hres
      obtain ⟨acc', ha⟩ := asks_rest rfl .braces [] hres
      exact ⟨acc', calls_braces (asks_block1_word hw hcolon hstart ha)⟩
  | first hw hstart =>
    exact goesOn_block (calls_braces (asks_block1_none hw hstart (asks_nt _ _)))
  | next _ hres ih =>
    obtain ⟨acc, hcall⟩ := ih.2 _ hres
    exact goesOn_block hcall

/-! ## What a statement asks the hooks -/

/-- The first thing that a program does is to read a token: up to then it only peeks. -/
structure Reads (m : Progress cx) (hooks : Hooks σ) (p : P α) (s : State σ) : Prop where
  asks : ∀ o s', asks cx hooks o s' p s → o = .peek ∨ o = .junk ∨ m.left s'.toks < m.left s.toks
  run : ∀ r, runs cx hooks p s = some r → m.left r.2.toks < m.left s.toks

/-- The program fails without having read anything. -/
structure PeeksOnly (cx : Settings) (hooks : Hooks σ) (p : P α) (s : State σ) : Prop where
  asks : ∀ o s', Grammar.asks cx hooks o s' p s → o = .peek
  run : runs cx hooks p s = some (.fail, s)

variable {m : Progress cx} {s : State σ}

theorem asks_accept {t : Token} {o : Op} {s' : State σ} (h : asks cx hooks o s' (accept t) s) :
    o = .peek ∨ (o = .junk ∧ (s.peek cx).1 = t) := by
  rcases (Prog.asks_bind_iff (S := sig) _ _ s).1 h with hp | ⟨a, s1, hr, ha⟩
  · exact .inl ((Prog.asks_op_iff (S := sig) _ _).1 hp).1.symm
  · cases (runs_peek s).symm.trans hr
    have hthen : asks cx hooks o s' (if (s.peek cx).1 = t then do junk; pure (s.peek cx).2 else fail) s := ha
    split at hthen
    · next ht =>
      rcases (Prog.asks_bind_iff (S := sig) _ _ s).1 hthen with hj | ⟨_, _, _, hpure⟩
      · exact .inr ⟨((Prog.asks_op_iff (S := sig) _ _).1 hj).1.symm, ht⟩
      · exact absurd hpure (Prog.not_asks_pure _ _)
    · exact absurd hthen (Prog.not_asks_fail s)

theorem reads_accept {t : Token} (h : (s.peek cx).1 = t) (ht : t ≠ .eof) : Reads m hooks (accept t) s where
  asks _ _ ha := (asks_accept ha).imp_right fun hj => .inl hj.1
  run r hr := by
    rw [runs_accept, if_pos h] at hr
    cases hr
    exact Progress.junk_lt h ht

theorem peeksOnly_accept {t : Token} (h : (s.peek cx).1 ≠ t) : PeeksOnly cx hooks (accept t) s where
  asks _ _ ha := (asks_accept ha).resolve_right fun hj => h hj.2
  run := by rw [runs_accept, if_neg h]

theorem Reads.alt {p : P α} (h : Reads m hooks p s) (k : α → P β) (q : P β) :
    Reads m hooks (Grammar.alt p k q) s where
  asks o s' ha := by
    rcases (Prog.asks_alt_iff (S := sig) p k q s).1 ha with ha | ⟨a, s1, hr, ha⟩ | ⟨s1, hr, ha⟩
    · exact h.asks o s' ha
    · exact .inr (.inr (Nat.lt_of_le_of_lt (Progress.asks_le ha) (h.run _ hr)))
    · exact .inr (.inr (Nat.lt_of_le_of_lt (Progress.asks_le ha) (h.run _ hr)))
  run r hr := by
    rw [runs_alt] at hr
    rcases Prog.andThen_eq_some hr with ⟨a, s1, hp, hk⟩ | ⟨s1, hp, hq⟩ | ⟨e, s1, hp, rfl⟩
    · exact Nat.lt_of_le_of_lt (Progress.runs_le hk) (h.run _ hp)
    · exact Nat.lt_of_le_of_lt (Progress.runs_le hq) (h.run _ hp)
    · exact h.run _ hp

theorem PeeksOnly.reads {p : P α} {k : α → P β} {q : P β} (h : PeeksOnly cx hooks p s) (hq : Reads m hooks q s) :
    Reads m hooks (Grammar.alt p k q) s where
  asks o s' ha := by
    rcases (Prog.asks_alt_iff (S := sig) p k q s).1 ha with ha | ⟨a, s1, hr, ha⟩ | ⟨s1, hr, ha⟩
    · exact .inl (h.asks o s' ha)
    · cases h.run.symm.trans hr
    · cases h.run.symm.trans hr
      exact hq.asks o s' ha
  run r hr := by
    rw [runs_alt, h.run, Prog.andThen_fail] at hr
    exact hq.run r hr

theorem PeeksOnly.alt {p : P α} {k : α → P β} {q : P β} (h : PeeksOnly cx hooks p s)
    (hq : PeeksOnly cx hooks q s) : PeeksOnly cx hooks (Grammar.alt p k q) s where
  asks o s' ha := by
    rcases (Prog.asks_alt_iff (S := sig) p k q s).1 ha with ha | ⟨a, s1, hr, ha⟩ | ⟨s1, hr, ha⟩
    · exact h.asks o s' ha
    · cases h.run.symm.trans hr
    · cases h.run.symm.trans hr
      exact hq.asks o s' ha
  run := by rw [runs_alt, h.run, Prog.andThen_fail, hq.run]

theorem peeksOnly_fail : PeeksOnly cx hooks (Grammar.fail : P α) s where
  asks _ _ ha := absurd ha (Prog.not_asks_fail s)
  run := rfl

theorem PeeksOnly.asks_alt {p : P α} {k : α → P β} {q : P β} (h : PeeksOnly cx hooks p s) {o : Op} {s' : State σ}
    (hq : Grammar.asks cx hooks o s' q s) : Grammar.asks cx hooks o s' (Grammar.alt p k q) s :=
  (Prog.asks_alt_iff (S := sig) p k q s).2 (.inr (.inr ⟨s, h.run, hq⟩))

theorem peeksOnly_parseBlockVar (hvar : (s.peek cx).1 ≠ .kwd .kwVar) (hfinal : (s.peek cx).1 ≠ .kwd .kwFinal) :
    PeeksOnly cx hooks (parseBlockVar cx) s :=
  (peeksOnly_accept hvar).alt ((peeksOnly_accept hfinal).alt peeksOnly_fail)

/-- A token that `parse_block_elt` reads itself. -/
theorem reads_parseBlockElt (body : Body) (h : readsItself (s.peek cx).1 = true) :
    Reads m hooks (parseBlockElt cx body) s := by
  unfold readsItself at h
  split at h
  · next ht => exact ((reads_accept ht nofun).alt _ _).alt _ _
  · next ht =>
    have hne : (s.peek cx).1 ≠ .kwd .kwVar := ht ▸ nofun
    exact ((peeksOnly_accept hne).reads ((reads_accept ht nofun).alt _ _)).alt _ _
  · next ht =>
    refine (peeksOnly_parseBlockVar (ht ▸ nofun) (ht ▸ nofun)).reads ?_
    exact (reads_accept ht nofun).alt _ _
  · next ht =>
    refine (peeksOnly_parseBlockVar (ht ▸ nofun) (ht ▸ nofun)).reads ((peeksOnly_accept (ht ▸ nofun)).reads ?_)
    exact (reads_accept ht nofun).alt _ _
  · next ht =>
    refine (peeksOnly_parseBlockVar (ht ▸ nofun) (ht ▸ nofun)).reads ((peeksOnly_accept (ht ▸ nofun)).reads ?_)
    refine (peeksOnly_accept (ht ▸ nofun)).reads ?_
    exact (reads_accept ht nofun).alt _ _
  · cases h

/-- Any other token is left to `top_expr`. -/
theorem asks_parseBlockElt (body : Body) (h : readsItself (s.peek cx).1 = false) :
    asks cx hooks (.nt (.topExpr body)) s (parseBlockElt cx body) s := by
  have hne : ∀ t, readsItself t = true → (s.peek cx).1 ≠ t := by
    rintro t ht rfl
    exact absurd (h.symm.trans ht) Bool.false_ne_true
  refine (peeksOnly_parseBlockVar (hne _ rfl) (hne _ rfl)).asks_alt ?_
  refine (peeksOnly_accept (hne _ rfl)).asks_alt ?_
  refine (peeksOnly_accept (hne _ rfl)).asks_alt ?_
  refine (peeksOnly_accept (hne _ rfl)).asks_alt ?_
  exact (Prog.asks_bind_iff (S := sig) _ _ _).2 (.inl (asks_nt _ _))

/-! ## Consulted hooks -/

/-- The callbacks, one after the other, have no result. -/
def Passed (cx : Settings) (hooks : Hooks σ) : List (Callback σ (Option Expr)) → State σ → State σ → Prop
  | [], s, s' => s' = s
  | c :: cs, s, s' => ∃ s1, callbackRuns cx hooks c s = some (.ok none, s1) ∧ Passed cx hooks cs s1 s'

/-- In the parse with `f` from the state `s`, the hook behind the hooks `pre` is asked about a statement, with
the tokens `ts` before it. -/
def Consulted (cx : Settings) (hooks : Hooks σ) (pre : List (Bool → Callback σ (Option Expr))) (f : NT)
    (s : State σ) (ts : TokenList) : Prop :=
  ∃ s1 s2, Calls (grammar cx hooks) (.inl (.nt (.topExpr .braces))) s1 (.inl (.nt f)) s ∧
    Passed cx hooks (pre.map fun h => h true) s1 s2 ∧ s2.toks = ts

/-- Behind callbacks without a result the next one is run, and the others after it if it has none either. -/
theorem Passed.fullRuns_hooked {cs : List (Callback σ (Option Expr))} {s s' : State σ} (h : Passed cx hooks cs s s')
    (c : Callback σ (Option Expr)) (post : List (Callback σ (Option Expr))) (p : P Expr) :
    fullRuns cx hooks (hooked cx recodeExpr (cs ++ c :: post) p) s =
      Prog.andThen (callbackRuns cx hooks c s') (decoding recodeExpr (fullRuns cx hooks (hooked cx recodeExpr post p)))
        fun s => some (.fail, s) := by
  induction cs generalizing s with
  | nil =>
    obtain rfl := h
    exact fullRuns_hooked_cons s' recodeExpr c post p
  | cons d cs ih =>
    obtain ⟨s1, hd, hcs⟩ := h
    rw [List.cons_append, fullRuns_hooked_cons, hd, Prog.andThen_ok]
    exact ih hcs

theorem Passed.le {cs : List (Callback σ (Option Expr))} {s s' : State σ} (h : Passed cx hooks cs s s') :
    m.left s'.toks ≤ m.left s.toks := by
  induction cs generalizing s with
  | nil =>
    obtain rfl := h
    exact Nat.le_refl _
  | cons d cs ih =>
    obtain ⟨s1, hd, hcs⟩ := h
    exact Nat.le_trans (ih hcs) (Progress.fullRuns_le ((fullRuns_callback d s).trans hd))

/-- The hooks before it leave the statement to a hook: with the stream at its first token they have no result. -/
def LeftTo (cx : Settings) (hooks : Hooks σ) (pre : List (Bool → Callback σ (Option Expr)))
    (ts : TokenList) : Prop :=
  ∀ s1, s1.toks = ts → ∃ s2, Passed cx hooks (pre.map fun h => h true) s1 s2 ∧ s2.toks = ts

/-- The hooks are asked about the statement `i` of a block that starts in the state `s`, if its first token is
`t`: it is not one that `parse_block_elt` reads, nor has `block1` read it. -/
def Covered (cx : Settings) (s : State σ) (i : Nat) (t : Token) : Prop :=
  readsItself t = false ∧ (i = 0 → word (s.peek cx).1 = none)

/-- A first token that `block1` has read. -/
theorem not_consulted_word {b : Pos} {s : State σ} {c : Constant} {s1 : State σ} (hw : word (s.peek cx).1 = some c)
    (hstart : fullRuns cx hooks (onBlockStart cx hooks b) (s.junk cx) = some (.ok (), s1))
    (pre : List (Bool → Callback σ (Option Expr))) (f : NT) (m : Progress cx) :
    ¬ Consulted cx hooks pre f s1 s.toks := by
  rintro ⟨s2, s3, hcall, hpassed, htoks⟩
  have hread : m.left (s.junk cx).toks < m.left s.toks := by
    refine Progress.junk_lt rfl fun ht => ?_
    rw [ht] at hw
    cases hw
  have hle : m.left s3.toks ≤ m.left (s.junk cx).toks :=
    calc m.left s3.toks ≤ m.left s2.toks := hpassed.le
      _ ≤ m.left s1.toks := Progress.calls_le hcall
      _ ≤ m.left (s.junk cx).toks := Progress.fullRuns_le hstart
  rw [htoks] at hle
  exact absurd hread (Nat.not_lt.2 hle)

/-- A first token that `parse_block_elt` reads. -/
theorem not_consulted_reads {s : State σ} (h : readsItself (s.peek cx).1 = true)
    (pre : List (Bool → Callback σ (Option Expr))) (m : Progress cx) :
    ¬ Consulted cx hooks pre (.parseBlockElt .braces) s s.toks := by
  rintro ⟨s1, s2, hcall, hpassed, htoks⟩
  have hreads : Reads m hooks (parseBlockElt cx .braces) s := reads_parseBlockElt .braces h
  have hlt : m.left s1.toks < m.left s.toks := by
    rcases hcall.asked rfl with ⟨ho, -⟩ | ⟨o1, s3, ha, hcall⟩
    · cases ho
    · obtain ⟨o, rfl, hask⟩ := (Prog.asks_inl_iff (parseBlockElt cx .braces) s).1 ha
      rcases hreads.asks o s3 hask with rfl | rfl | hlt
      · exact absurd (hcall.prim rfl).1 nofun
      · exact absurd (hcall.prim rfl).1 nofun
      · exact Nat.lt_of_le_of_lt (Progress.calls_le hcall) hlt
  have hle : m.left s2.toks ≤ m.left s1.toks := hpassed.le
  rw [htoks] at hle
  exact absurd hlt (Nat.not_lt.2 hle)

/-- Any other one, with the stream at it. -/
theorem consulted_of_left {s : State σ} (h : readsItself (s.peek cx).1 = false)
    {pre : List (Bool → Callback σ (Option Expr))} (hpre : LeftTo cx hooks pre s.toks) :
    Consulted cx hooks pre (.parseBlockElt .braces) s s.toks := by
  obtain ⟨s2, hpassed, htoks⟩ := hpre s rfl
  exact ⟨s, s2, calls_nt rfl (asks_parseBlockElt .braces h), hpassed, htoks⟩

theorem consulted_iff (m : Progress cx) {b : Pos} {s : State σ} {i : Nat} {f : NT} {s0 s1 : State σ}
    (h : Statement cx hooks b s i f s0 s1) {pre : List (Bool → Callback σ (Option Expr))}
    (hpre : LeftTo cx hooks pre s0.toks) :
    Consulted cx hooks pre f s1 s0.toks ↔ Covered cx s i (s0.peek cx).1 := by
  have helt : ∀ {s0 : State σ} {i : Nat}, LeftTo cx hooks pre s0.toks → (i = 0 → word (s.peek cx).1 = none) →
      (Consulted cx hooks pre (.parseBlockElt .braces) s0 s0.toks ↔ Covered cx s i (s0.peek cx).1) := by
    intro s0 i hpre hi
    constructor
    · intro hcons
      refine ⟨?_, hi⟩
      by_contra hreads
      exact not_consulted_reads (Bool.not_eq_false _ ▸ hreads) pre m hcons
    · rintro ⟨hreads, -⟩
      exact consulted_of_left hreads hpre
  cases h with
  | word hw hcolon hstart =>
    refine iff_of_false (not_consulted_word hw hstart pre _ m) fun hcov => ?_
    rw [hcov.2 rfl] at hw
    cases hw
  | first hw hstart => exact helt hpre fun _ => hw
  | next hst hres => exact helt hpre nofun

/-- For every statement of a block: the block's run comes to it, a hook that it is left to is asked about it
exactly if it is covered, and is asked with `isTopLevel`. -/
theorem onExpr_coverage (m : Progress cx) {b : Pos} {s : State σ} {i : Nat} {f : NT} {s0 s1 : State σ}
    (h : Statement cx hooks b s i f s0 s1) :
    Calls (grammar cx hooks) (.inl (.nt f)) s1 (.inl (.nt (.braces b))) s ∧
      ∀ pre hook post, hooks.onExpr = pre ++ hook :: post → LeftTo cx hooks pre s0.toks →
        (Consulted cx hooks pre f s1 s0.toks ↔ Covered cx s i (s0.peek cx).1) ∧
        ∀ s2 s3, Passed cx hooks (pre.map fun h => h true) s2 s3 →
          parse cx hooks (.topExpr .braces) s2 =
            Prog.andThen (callbackRuns cx hooks (hook true) s3)
              (decoding recodeExpr
                (fullRuns cx hooks (hooked cx recodeExpr (post.map fun h => h true) (nt .expr'))))
              fun s => some (.fail, s) := by
  refine ⟨h.goesOn.1, fun pre hook post hhooks hpre => ⟨consulted_iff m h hpre, fun s2 s3 hpassed => ?_⟩⟩
  rw [parse_hook, hookBody, hhooks, List.map_append, List.map_cons]
  exact hpassed.fullRuns_hooked (hook true) _ _

/-! ## A statement twice -/

/-- A mod with its own meaning for the identifier `foo`. -/
def fooMod : Hooks Unit :=
  { noMods with
    onExpr := [fun _ => do
      match ← TokenStream.peek with
      | (.const (.ident "foo"), _) => do
        TokenStream.consume
        pure (some (.eCall (identExpr "foo") []))
      | _ => pure none] }

/-- After the `{` of `{ foo; foo; }` -/
def fooFoo : State Unit :=
  ⟨[identTok "foo", (.semicolon, nullPos), identTok "foo", (.semicolon, nullPos), (.brClose, nullPos)],
    (.brOpen, nullPos), false, [], (), []⟩

/-- Behind its first `foo` -/
def behindFoo : State Unit := (fooFoo.junk plainSettings).note (.blockStart nullPos)

/-- Nothing is left after the last token. -/
def plainProgress : Progress plainSettings where
  left := List.length
  tail _ _ := Nat.lt_succ_self _
  lexXml _ _ _ _ h := nomatch h

theorem first_foo : Statement plainSettings fooMod nullPos fooFoo 0 (.block2Elt (.ident "foo") nullPos) fooFoo
    behindFoo := by
  refine .word rfl nofun ?_
  rw [onBlockStart, fullRuns_bind, fullRuns_note]
  rfl

theorem second_foo : Statement plainSettings fooMod nullPos fooFoo 1 (.parseBlockElt .braces)
    (behindFoo.junk plainSettings) (behindFoo.junk plainSettings) := by
  refine .next first_foo (.ok (e := identExpr "foo") ?_)
  have hnext : parse plainSettings fooMod (.exprNext (identExpr "foo") nullPos.pmax) behindFoo =
      some (.ok (identExpr "foo"), behindFoo) := by
    refine parse_exprNext_passed nofun ?_
    simp only [exprNext', runs_bind, runs_peek, Prog.andThen_ok]
    rfl
  have helt : parse plainSettings fooMod (.block2Elt (.ident "foo") nullPos) behindFoo =
      some (.ok (identExpr "foo"), behindFoo.junk plainSettings) := by
    rw [parse_plain _ rfl, block2Elt, runs_bind, runs_exprNext]
    refine (congrArg (Prog.andThen · _ _) hnext).trans ?_
    simp [semicolon]
    rfl
  refine (exec_after rfl behindFoo).trans ?_
  exact congrArg (Option.map _) helt

theorem leftTo_nil (ts : TokenList) : LeftTo cx hooks [] ts := fun s1 h => ⟨s1, rfl, h⟩

theorem second_foo_consulted :
    Consulted plainSettings fooMod [] (.parseBlockElt .braces) (behindFoo.junk plainSettings)
      (behindFoo.junk plainSettings).toks := by
  obtain ⟨-, hooked⟩ := onExpr_coverage plainProgress second_foo
  obtain ⟨hiff, -⟩ := hooked [] _ [] rfl (leftTo_nil _)
  exact hiff.2 ⟨rfl, nofun⟩

/-- The mod is asked about the second `foo;`, and has a meaning for it, but not about the first. -/
theorem first_foo_missed :
    ∃ f s1 s2, Statement plainSettings fooMod nullPos fooFoo 0 f fooFoo s1 ∧
      ¬ Consulted plainSettings fooMod [] f s1 fooFoo.toks ∧
      Statement plainSettings fooMod nullPos fooFoo 1 (.parseBlockElt .braces) s2 s2 ∧
      (s2.peek plainSettings).1 = (fooFoo.peek plainSettings).1 ∧
      Consulted plainSettings fooMod [] (.parseBlockElt .braces) s2 s2.toks ∧
      parse plainSettings fooMod (.topExpr .braces) s2 =
        some (.ok (.eCall (identExpr "foo") []), s2.junk plainSettings) := by
  refine ⟨_, behindFoo, behindFoo.junk plainSettings, first_foo, fun h => ?_, second_foo, rfl, ?_, ?_⟩
  · have hcov := (consulted_iff plainProgress first_foo (leftTo_nil _)).1 h
    cases hcov.2 rfl
  · exact (consulted_iff plainProgress second_foo (leftTo_nil _)).2 ⟨rfl, nofun⟩
  · rw [parse_hook]
    refine (fullRuns_hooked_single _ _ _ _).trans ?_
    have hpeek : State.peek plainSettings (behindFoo.junk plainSettings) = identTok "foo" := rfl
    simp only [callbackRuns_bind, callbackRuns_peek, Prog.andThen_ok, hpeek, identTok, callbackRuns_consume,
      callbackRuns_pure]
    rfl

end EvilHaxe.Evil
