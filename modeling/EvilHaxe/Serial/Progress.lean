/-
The progress of `haxe.Unserializer`. Where no negative length is added to the position, every call of `unserialize` that
returns goes forward, and so every loop ends.
-/
import EvilHaxe.Serial.Unserializer
import Mathlib.Algebra.Ring.Nat
import Mathlib.Algebra.Ring.Int.Defs

namespace EvilHaxe.Serial

open Lib

variable {V C E σ : Type} {H : Host V C E σ}

/-! ## The position -/

/-- The unserializer that does not go back. -/
def checked (H : Host V C E σ) (o : Op V C E) : Meaning (sig V C E) (Error V) (State V σ) o :=
  match o with
  | .skip n => if 0 ≤ n then system H (.skip n) else .prim fun s => (.fail, s)
  | o => system H o

theorem checked_eq {o : Op V C E} (h : ∀ n, o = .skip n → 0 ≤ n) : checked H o = system H o := by
  cases o with
  | skip n => exact if_pos (h n rfl)
  | _ => rfl

/-- The text stays, and the position does not go back. -/
def forward (V σ : Type) : Invariant (State V σ) where
  Inv s s' := s'.buf = s.buf ∧ s.pos ≤ s'.pos
  Err s s' := s'.buf = s.buf ∧ s.pos ≤ s'.pos
  refl _ := ⟨rfl, Int.le_refl _⟩
  trans h h' := ⟨h'.1.trans h.1, Int.le_trans h.2 h'.2⟩
  err h := h
  inv_err h h' := ⟨h'.1.trans h.1, Int.le_trans h.2 h'.2⟩

theorem holds_forward {ε α : Type} {s : State V σ} {r : Outcome ε α × State V σ} :
    (forward V σ).Holds s r ↔ r.2.buf = s.buf ∧ s.pos ≤ r.2.pos := by
  obtain ⟨_ | _ | _, s'⟩ := r <;> exact Iff.rfl

theorem prim_forward (o : LibOp V C E) (s : State V σ) : (forward V σ).Holds s (H.prim o s) := by
  rw [holds_forward]
  unfold Host.prim
  split <;> exact ⟨rfl, Int.le_refl _⟩

theorem checked_prim {o : Op V C E} {f : State V σ → Outcome (Error V) o.Res × State V σ} (h : checked H o = .prim f)
    (s : State V σ) : (forward V σ).Holds s (f s) := by
  have stays : ∀ {α : Type} {r : Outcome (Error V) α × State V σ}, r.2.buf = s.buf → r.2.pos = s.pos →
      (forward V σ).Holds s r := fun hbuf hpos => holds_forward.2 ⟨hbuf, Int.le_of_eq hpos.symm⟩
  cases o with
  | skip n =>
    by_cases hn : 0 ≤ n
    · rw [checked, if_pos hn] at h
      cases h
      exact holds_forward.2 ⟨rfl, Int.le_add_of_nonneg_right hn⟩
    · rw [checked, if_neg hn] at h
      cases h
      exact stays rfl rfl
  | readDigits =>
    cases h
    exact holds_forward.2 ⟨rfl, Int.le_add_of_nonneg_right (Int.natCast_nonneg _)⟩
  | floatText =>
    cases h
    exact holds_forward.2 ⟨rfl, Int.le_add_of_nonneg_right (Int.natCast_nonneg _)⟩
  | substr len =>
    cases h
    exact prim_forward _ s
  | lib o =>
    cases h
    exact prim_forward o s
  | get k => cases h; exact stays rfl rfl
  | remaining => cases h; exact stays rfl rfl
  | codeAt i => cases h; exact stays rfl rfl
  | cachePush v => cases h; exact stays rfl rfl
  | cacheAt n => cases h; exact stays rfl rfl
  | scachePush str => cases h; exact stays rfl rfl
  | scacheAt n => cases h; exact stays rfl rfl
  | throwInvalidChar => cases h; exact stays rfl rfl
  | _ => cases h

theorem checked_after {o o' : Op V C E} {f} (h : checked H o = .after o' f) (s : State V σ)
    (r : Outcome (Error V) o'.Res × State V σ) (hr : (forward V σ).Holds s r) : (forward V σ).Holds s (f r.1 r.2) := by
  cases o with
  | skip n =>
    rw [checked] at h
    split at h <;> cases h
  | attempt =>
    cases h
    obtain ⟨_ | _ | _, s'⟩ := r <;> exact hr
  | _ => cases h

/-- A run of the unserializer that does not go back. -/
abbrev checkedRun (H : Host V C E σ) (o : Op V C E) (s : State V σ) : Option (Outcome (Error V) o.Res × State V σ) :=
  exec (S := sig V C E) (checked H) o s

theorem keeps_forward (o : Op V C E) (s : State V σ) (r : Outcome (Error V) o.Res × State V σ)
    (h : checkedRun H o s = some r) : (forward V σ).Holds s r :=
  (forward V σ).exec_holds (fun _ _ h s => checked_prim h s) (fun _ _ _ h => checked_after h) o s r h

/-- The position does not go back. -/
theorem checkedRun_forward {o : Op V C E} {s : State V σ} {r : Outcome (Error V) o.Res × State V σ}
    (h : checkedRun H o s = some r) : r.2.buf = s.buf ∧ s.pos ≤ r.2.pos :=
  holds_forward.1 (keeps_forward o s r h)

section

variable {o' : Op V C E} {s s' : State V σ} {α : Type} {p : M V C E α}

theorem asks_forward (h : p.Asks (exec (checked H)) o' s' s) : s'.buf = s.buf ∧ s.pos ≤ s'.pos :=
  (forward V σ).asks_inv keeps_forward h

theorem run_forward {r : Outcome (Error V) α × State V σ} (h : p.run (exec (checked H)) s = some r) :
    r.2.buf = s.buf ∧ s.pos ≤ r.2.pos :=
  holds_forward.1 ((forward V σ).run_holds keeps_forward p s r h)

end

/-! ## Progress -/

theorem run_get (k : Nat) (s : State V σ) :
    (call (.get k) : M V C E _).run (exec (checked H)) s = some (.ok (s.get k), s) :=
  (Prog.run_op _ s).trans (by rw [exec_eq]; rfl)

theorem run_skip {n : Int} (h : 0 ≤ n) (s : State V σ) :
    (call (.skip n) : M V C E _).run (exec (checked H)) s = some (.ok (), s.move n) :=
  (Prog.run_op _ s).trans (by rw [exec_eq, checked_eq fun m hm => by cases hm; exact h]; rfl)

theorem run_remaining (s : State V σ) :
    (call .remaining : M V C E _).run (exec (checked H)) s = some (.ok (s.buf.length - s.pos), s) :=
  (Prog.run_op _ s).trans (by rw [exec_eq]; rfl)

/-- A character stands before the end of the text. -/
theorem lt_of_get {s : State V σ} {c : Nat} (h : s.get 0 = some c) : s.pos < s.buf.length := by
  unfold State.get at h
  split at h
  · obtain ⟨hlt, -⟩ := List.getElem?_eq_some_iff.1 h
    omega
  · cases h

theorem checkedRun_unserialize (s : State V σ) :
    checkedRun H .unserialize s = (unserialize H).run (exec (checked H)) s := exec_prog rfl s

/-- A call of `unserialize` that returns has gone forward. -/
theorem unserialize_forward {s s' : State V σ} {v : V} (h : checkedRun H .unserialize s = some (.ok v, s')) :
    s.pos < s.buf.length ∧ s.pos < s'.pos := by
  rw [checkedRun_unserialize, unserialize, Prog.run_bind, run_get, Prog.andThen_ok] at h
  cases hget : s.get 0 with
  | none =>
    rw [hget] at h
    change (call .throwInvalidChar : M V C E V).run (exec (checked H)) s = _ at h
    rw [Prog.run_op, exec] at h
    cases h
  | some c =>
    refine ⟨lt_of_get hget, ?_⟩
    rw [hget] at h
    cases hbranch : branch H c with
    | none =>
      simp only [Option.bind_some, hbranch] at h
      rw [Prog.run_op, exec] at h
      cases h
    | some p =>
      simp only [Option.bind_some, hbranch] at h
      rw [Prog.run_bind, run_skip (by decide), Prog.andThen_ok] at h
      have hmove := (run_forward h).2
      change s.pos + 1 ≤ s'.pos at hmove
      omega

/-! ## Termination -/

/-- How far a call is up from those that it may make at the same position. -/
def rank : Op V C E → Nat
  | .unserialize => 1
  | .attempt => 2
  | .unserializeObject _ | .unserializeEnum .. | .enumArgs .. | .arrayLoop _ | .listLoop _ | .mapLoop _ | .intMapLoop _
  | .hxUnserialize _ => 3
  | _ => 0

theorem rank_le (o : Op V C E) : rank o ≤ 3 := by
  unfold rank
  split <;> decide

/-- What is left of the text counts before the rank. -/
def size (o : Op V C E) (s : State V σ) : Nat := 4 * (s.buf.length - s.pos).toNat + rank o

section

variable {o o' : Op V C E} {s s' : State V σ} {α β : Type}

theorem size_lt_of_rank (h : s'.buf = s.buf ∧ s.pos ≤ s'.pos) (hrank : rank o' < rank o) : size o' s' < size o s := by
  unfold size
  rw [h.1]
  omega

theorem size_lt_of_moved (h : s'.buf = s.buf) (hlt : s.pos < s.buf.length) (hmoved : s.pos < s'.pos) :
    size o' s' < size o s := by
  have hrank := rank_le o'
  unfold size
  rw [h]
  omega

/-- An operation of lower rank, and what goes on behind it. -/
theorem size_lt_of_call {a : Op V C E} {k : a.Res → M V C E β}
    (h : (call a >>= k : M V C E β).Asks (exec (checked H)) o' s' s) (ha : rank a < rank o)
    (hk : ∀ r s1, checkedRun H a s = some (.ok r, s1) → (k r).Asks (exec (checked H)) o' s' s1 → size o' s' < size o s) :
    size o' s' < size o s := by
  rcases (Prog.asks_bind_iff _ _ _).1 h with h | ⟨r, s1, hrun, h⟩
  · obtain ⟨rfl, rfl⟩ := (Prog.asks_op_iff _ _).1 h
    exact size_lt_of_rank ⟨rfl, Int.le_refl _⟩ ha
  · rw [Prog.run_op] at hrun
    exact hk r s1 hrun h

/-- Everything behind a point that is further on in the text. -/
theorem size_lt_behind {p : M V C E α} {s1 : State V σ} (h : p.Asks (exec (checked H)) o' s' s1) (hbuf : s1.buf = s.buf)
    (hlt : s.pos < s.buf.length) (hmoved : s.pos < s1.pos) : size o' s' < size o s := by
  obtain ⟨hbuf', hle⟩ := asks_forward h
  exact size_lt_of_moved (hbuf'.trans hbuf) hlt (Int.lt_of_lt_of_le hmoved hle)

/-- A character that stands at the position is looked at. -/
theorem size_lt_of_get {k : Option Nat → M V C E β}
    (h : (call (.get 0) >>= k : M V C E β).Asks (exec (checked H)) o' s' s) (ho : 0 < rank o)
    (hk : (k (s.get 0)).Asks (exec (checked H)) o' s' s → size o' s' < size o s) : size o' s' < size o s := by
  refine size_lt_of_call h ho fun r s1 hrun hasks => ?_
  have hget := (run_get (H := H) 0 s).symm.trans ((Prog.run_op _ s).trans hrun)
  cases hget
  exact hk hasks

/-- The position is moved behind a character. -/
theorem size_lt_of_skip {k : Unit → M V C E β}
    (h : (call (.skip 1) >>= k : M V C E β).Asks (exec (checked H)) o' s' s) (ho : 0 < rank o)
    (hlt : s.pos < s.buf.length) : size o' s' < size o s := by
  refine size_lt_of_call h ho fun r s1 hrun hasks => ?_
  have hskip := (run_skip (H := H) (by decide) s).symm.trans ((Prog.run_op _ s).trans hrun)
  cases hskip
  exact size_lt_behind hasks rfl hlt (Int.lt_succ _)

/-- A nested value is read first. -/
theorem size_lt_of_unserialize {k : V → M V C E β}
    (h : (call .unserialize >>= k : M V C E β).Asks (exec (checked H)) o' s' s) (ho : 1 < rank o) :
    size o' s' < size o s := by
  refine size_lt_of_call h ho fun r s1 hrun hasks => ?_
  obtain ⟨hlt, hmoved⟩ := unserialize_forward hrun
  exact size_lt_behind hasks (checkedRun_forward hrun).1 hlt hmoved

end

theorem asks_unserialize {o' : Op V C E} {s s' : State V σ}
    (h : (unserialize H).Asks (exec (checked H)) o' s' s) : size o' s' < size (.unserialize : Op V C E) s := by
  refine size_lt_of_get h (Nat.succ_pos _) fun h => ?_
  cases hget : s.get 0 with
  | none =>
    rw [hget] at h
    obtain ⟨rfl, rfl⟩ := (Prog.asks_op_iff _ _).1 h
    exact size_lt_of_rank ⟨rfl, Int.le_refl _⟩ (Nat.succ_pos _)
  | some c =>
    rw [hget] at h
    cases hbranch : branch H c with
    | none =>
      simp only [Option.bind_some, hbranch] at h
      obtain ⟨rfl, rfl⟩ := (Prog.asks_op_iff _ _).1 h
      exact size_lt_of_rank ⟨rfl, Int.le_refl _⟩ (Nat.succ_pos _)
    | some p =>
      simp only [Option.bind_some, hbranch] at h
      exact size_lt_of_skip h (Nat.succ_pos _) (lt_of_get hget)

/-- A loop until `h`: what is not the end is read as a value. -/
theorem asks_listLoop {o' : Op V C E} {s s' : State V σ} (l : V)
    (h : (listLoop l).Asks (exec (checked H)) o' s' s) : size o' s' < size (.listLoop l : Op V C E) s := by
  refine size_lt_of_get h (Nat.succ_pos _) fun h => ?_
  split at h
  · obtain ⟨rfl, rfl⟩ := (Prog.asks_op_iff _ _).1 h
    exact size_lt_of_rank ⟨rfl, Int.le_refl _⟩ (Nat.succ_pos _)
  · exact size_lt_of_unserialize h (by decide : 1 < 3)

theorem asks_mapLoop {o' : Op V C E} {s s' : State V σ} (m : V)
    (h : (mapLoop m).Asks (exec (checked H)) o' s' s) : size o' s' < size (.mapLoop m : Op V C E) s := by
  refine size_lt_of_get h (Nat.succ_pos _) fun h => ?_
  split at h
  · obtain ⟨rfl, rfl⟩ := (Prog.asks_op_iff _ _).1 h
    exact size_lt_of_rank ⟨rfl, Int.le_refl _⟩ (Nat.succ_pos _)
  · exact size_lt_of_unserialize h (by decide : 1 < 3)

theorem asks_arrayLoop {o' : Op V C E} {s s' : State V σ} (a : V)
    (h : (arrayLoop a).Asks (exec (checked H)) o' s' s) : size o' s' < size (.arrayLoop a : Op V C E) s := by
  refine size_lt_of_get h (Nat.succ_pos _) fun h => ?_
  split at h
  · obtain ⟨rfl, rfl⟩ := (Prog.asks_op_iff _ _).1 h
    exact size_lt_of_rank ⟨rfl, Int.le_refl _⟩ (Nat.succ_pos _)
  split at h
  · rename_i hget
    exact size_lt_of_skip h (Nat.succ_pos _) (lt_of_get hget)
  · exact size_lt_of_unserialize h (by decide : 1 < 3)

theorem asks_intMapLoop {o' : Op V C E} {s s' : State V σ} (m : V)
    (h : (intMapLoop m).Asks (exec (checked H)) o' s' s) : size o' s' < size (.intMapLoop m : Op V C E) s := by
  refine size_lt_of_get h (Nat.succ_pos _) fun h => ?_
  cases hget : s.get 0 with
  | none =>
    rw [hget] at h
    refine size_lt_of_call h (Nat.succ_pos _) fun r s1 _ hasks => ?_
    cases hasks
  | some c => exact size_lt_of_skip h (Nat.succ_pos _) (lt_of_get hget)

theorem asks_enumArgs {o' : Op V C E} {s s' : State V σ} (nargs : Int) (args : V)
    (h : (enumArgs nargs args).Asks (exec (checked H)) o' s' s) : size o' s' < size (.enumArgs nargs args : Op V C E) s := by
  unfold enumArgs at h
  split at h
  · exact size_lt_of_unserialize h (by decide : 1 < 3)
  · cases h

theorem asks_unserializeObject {o' : Op V C E} {s s' : State V σ} (o : V)
    (h : (unserializeObject o).Asks (exec (checked H)) o' s' s) :
    size o' s' < size (.unserializeObject o : Op V C E) s := by
  refine size_lt_of_call h (Nat.succ_pos _) fun r s1 hrun hasks => ?_
  have hremaining := (run_remaining (H := H) s).symm.trans ((Prog.run_op _ s).trans hrun)
  cases hremaining
  split at hasks
  · cases hasks
  refine size_lt_of_get hasks (Nat.succ_pos _) fun h => ?_
  split at h
  · obtain ⟨rfl, rfl⟩ := (Prog.asks_op_iff _ _).1 h
    exact size_lt_of_rank ⟨rfl, Int.le_refl _⟩ (Nat.succ_pos _)
  · exact size_lt_of_unserialize h (by decide : 1 < 3)

theorem asks_unserializeEnum {o' : Op V C E} {s s' : State V σ} (edecl : E) (tag : V)
    (h : (unserializeEnum edecl tag).Asks (exec (checked H)) o' s' s) :
    size o' s' < size (.unserializeEnum edecl tag : Op V C E) s := by
  refine size_lt_of_get h (Nat.succ_pos _) fun h => ?_
  cases hget : s.get 0 with
  | none =>
    rw [hget] at h
    refine size_lt_of_call h (Nat.succ_pos _) fun r s1 _ hasks => ?_
    cases hasks
  | some c => exact size_lt_of_skip h (Nat.succ_pos _) (lt_of_get hget)

theorem asks_hxUnserialize {o' : Op V C E} {s s' : State V σ} (o : V)
    (h : ((H.hxUnserialize o).interp CustomOp.program).Asks (exec (checked H)) o' s' s) :
    size o' s' < size (.hxUnserialize o : Op V C E) s := by
  have hforward := asks_forward h
  obtain ⟨c, s1, hc⟩ := Prog.exists_of_asks_interp h
  cases c with
  | unserialize =>
    obtain ⟨rfl, -⟩ := (Prog.asks_op_iff _ _).1 hc
    exact size_lt_of_rank hforward (by decide : 1 < 3)
  | attempt =>
    obtain ⟨rfl, -⟩ := (Prog.asks_op_iff _ _).1 hc
    exact size_lt_of_rank hforward (by decide : 2 < 3)
  | lib l =>
    obtain ⟨rfl, -⟩ := (Prog.asks_op_iff _ _).1 hc
    exact size_lt_of_rank hforward (by decide : 0 < 3)

theorem checked_asks {o : Op V C E} {p : M V C E o.Res} (h : checked H o = .prog p) {s s' : State V σ} {o' : Op V C E}
    (hasks : p.Asks (exec (checked H)) o' s' s) : size o' s' < size o s := by
  cases o with
  | skip n =>
    rw [checked] at h
    split at h <;> cases h
  | unserialize => cases h; exact asks_unserialize hasks
  | unserializeObject o => cases h; exact asks_unserializeObject o hasks
  | unserializeEnum edecl tag => cases h; exact asks_unserializeEnum edecl tag hasks
  | enumArgs nargs args => cases h; exact asks_enumArgs nargs args hasks
  | arrayLoop a => cases h; exact asks_arrayLoop a hasks
  | listLoop l => cases h; exact asks_listLoop l hasks
  | mapLoop m => cases h; exact asks_mapLoop m hasks
  | intMapLoop m => cases h; exact asks_intMapLoop m hasks
  | hxUnserialize o => cases h; exact asks_hxUnserialize o hasks
  | _ => cases h

theorem checked_attempt {o o' : Op V C E} {f} (h : checked H o = .after o' f) (s : State V σ) : size o' s < size o s := by
  cases o with
  | skip n =>
    rw [checked] at h
    split at h <;> cases h
  | attempt =>
    cases h
    exact size_lt_of_rank ⟨rfl, Int.le_refl _⟩ (by decide : 1 < 2)
  | _ => cases h

/-- Without a way back every operation ends, on every text. -/
theorem checkedRun_isSome (o : Op V C E) (s : State V σ) : (checkedRun H o s).isSome :=
  exec_isSome (S := sig V C E) Nat.lt_wfRel.wf (checked H) size (fun _ _ h _ _ _ => checked_asks h) (fun _ _ _ h => checked_attempt h) o s

/-! ## Runs -/

/-- The run on `buf` ends, each call of `unserialize` in it that returns has gone forward, and nothing in it moves the
position back. -/
structure Progresses (H : Host V C E σ) (buf : Str) (heap : σ) : Prop where
  ends : (run H buf heap).isSome
  forward : ∀ s s' v, Calls (system H) .unserialize s .unserialize (start buf heap) →
    exec (system H) .unserialize s = some (.ok v, s') → s.pos < s'.pos
  notBack : ∀ (o : Op V C E) s r, Calls (system H) o s .unserialize (start buf heap) →
    exec (system H) o s = some r → s.pos ≤ r.2.pos

/-- A run progresses exactly if no length that it adds to the position is negative. -/
theorem progresses_iff (H : Host V C E σ) (buf : Str) (heap : σ) : Progresses H buf heap ↔
    ∀ n s, Calls (system H) (.skip n) s .unserialize (start buf heap) → 0 ≤ n := by
  constructor
  · intro h n s hcall
    have hskip : exec (system H) (.skip n) s = some (.ok (), s.move n) := by rw [exec_eq]; rfl
    have hle := h.notBack _ s _ hcall hskip
    change s.pos ≤ s.pos + n at hle
    omega
  · intro h
    have hsame : ∀ o s, Calls (system H) o s .unserialize (start buf heap) → checkedRun H o s = exec (system H) o s := by
      intro o s hcall
      refine exec_congr fun o' s' hcall' => Agree.of_eq (checked_eq ?_).symm
      rintro n rfl
      exact h n s' (hcall.trans hcall')
    refine ⟨?_, fun s s' v hcall hr => ?_, fun o s r hcall hr => ?_⟩
    · rw [run, ← hsame _ _ .self]
      exact checkedRun_isSome _ _
    · rw [← hsame _ _ hcall] at hr
      exact (unserialize_forward hr).2
    · rw [← hsame _ _ hcall] at hr
      exact (checkedRun_forward hr).2

/-! ### A text that goes back -/

/-- A target with one value. -/
def oneValue : Host Unit Unit Unit Unit where
  null := ()
  bool _ := ()
  int _ := ()
  string _ := ()
  nan := ()
  negativeInfinity := ()
  positiveInfinity := ()
  ofClass _ := ()
  ofEnum _ := ()
  wrap n := n.bmod (2 ^ 32)
  noCode := 0
  call o _ :=
    (.ok (match o with
      | .substr text pos len => if pos < 0 ∨ len < 0 then [] else (text.drop pos.toNat).take len.toNat
      | .urlDecode s => s
      | .push .. | .setNull .. | .setField .. | .add .. | .set .. | .setInt .. | .setByte .. => ()
      | .asString _ => none
      | .resolveClass _ => none
      | .resolveEnum _ => none
      | .enumConstruct .. => none
      | .parseFloat _ | .newArray | .newObject | .createEmptyInstance _ | .createEnum .. | .newList | .newStringMap
      | .newIntMap | .newObjectMap | .dateFromString _ | .dateFromTime _ | .alloc _ | .user _ => ()), ())
  hxUnserialize _ := pure ()

section

variable (s : State V σ)

theorem runs_get (k : Nat) : (call (.get k) : M V C E (Option Nat)).run (exec (system H)) s = some (.ok (s.get k), s) :=
  (Prog.run_op _ s).trans (by rw [exec_eq]; rfl)

theorem runs_skip (n : Int) : (call (.skip n) : M V C E Unit).run (exec (system H)) s = some (.ok (), s.move n) :=
  (Prog.run_op _ s).trans (by rw [exec_eq]; rfl)

theorem runs_readDigits : (call .readDigits : M V C E Int).run (exec (system H)) s =
    some (.ok (digitsLoop H.wrap true 0 false s.rest).1, s.move (digitsLoop H.wrap true 0 false s.rest).2) :=
  (Prog.run_op _ s).trans (by rw [exec_eq]; rfl)

theorem runs_remaining : (call .remaining : M V C E Int).run (exec (system H)) s = some (.ok (s.buf.length - s.pos), s) :=
  (Prog.run_op _ s).trans (by rw [exec_eq]; rfl)

theorem runs_substr (len : Int) : (call (.substr len) : M V C E Str).run (exec (system H)) s =
    some (H.prim (.substr s.buf s.pos len) s) :=
  (Prog.run_op _ s).trans (by rw [exec_eq]; rfl)

theorem runs_urlDecode (str : Str) : (lib (.urlDecode str) : M V C E Str).run (exec (system H)) s =
    some (H.prim (.urlDecode str) s) :=
  (Prog.run_op _ s).trans (by rw [exec_eq]; rfl)

theorem runs_scachePush (str : Str) : (call (.scachePush str) : M V C E Unit).run (exec (system H)) s =
    some (.ok (), { s with scache := s.scache ++ [str] }) :=
  (Prog.run_op _ s).trans (by rw [exec_eq]; rfl)

end

/-- The length -4 of the string `y-4:` leads back to its beginning. -/
theorem progresses_not : ¬∀ buf, Progresses oneValue buf () := by
  intro h
  have hrun : exec (system oneValue) .unserialize (start [121, 45, 52, 58] ()) =
      some (.ok (), ⟨[121, 45, 52, 58], 0, [], [[]], ()⟩) := by
    have hbranch : ((start [121, 45, 52, 58] () : State Unit Unit).get 0).bind (branch oneValue) =
        some (unserializeString oneValue) := rfl
    have hlength : (readLength .invalidStringLength : M Unit Unit Unit Int).run (exec (system oneValue))
        ⟨[121, 45, 52, 58], 1, [], [], ()⟩ = some (.ok (-4), ⟨[121, 45, 52, 58], 4, [], [], ()⟩) := by
      rw [readLength, Prog.run_bind, runs_readDigits, Prog.andThen_ok, Prog.run_bind, runs_get, Prog.andThen_ok,
        Prog.run_bind, runs_skip, Prog.andThen_ok, Prog.run_bind, runs_remaining, Prog.andThen_ok]
      rfl
    have hstring : (unserializeString oneValue : M Unit Unit Unit Unit).run (exec (system oneValue))
        ⟨[121, 45, 52, 58], 1, [], [], ()⟩ = some (.ok (), ⟨[121, 45, 52, 58], 0, [], [[]], ()⟩) := by
      rw [unserializeString, Prog.run_bind, hlength, Prog.andThen_ok, Prog.run_bind, runs_substr]
      change Prog.andThen (some (.ok [], _)) _ _ = _
      rw [Prog.andThen_ok, Prog.run_bind, runs_skip, Prog.andThen_ok, Prog.run_bind, runs_urlDecode]
      change Prog.andThen (some (.ok [], _)) _ _ = _
      rw [Prog.andThen_ok, Prog.run_bind, runs_scachePush]
      rfl
    rw [exec_prog (p := unserialize oneValue) rfl, unserialize, Prog.run_bind, runs_get, Prog.andThen_ok, hbranch]
    simp only
    rw [Prog.run_bind, runs_skip, Prog.andThen_ok]
    exact hstring
  have hlt := (h [121, 45, 52, 58]).forward _ _ _ .self hrun
  exact absurd hlt (by decide)

end EvilHaxe.Serial
