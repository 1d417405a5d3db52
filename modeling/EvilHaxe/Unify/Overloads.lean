/-
`attempt_calls` of `callUnification.ml`: the candidates of an overloaded call are tried in order, and a rejected one is
undone from a snapshot of the monomorphs of the function. An attempt is given by what it writes to monomorphs and by how
it ends.
-/
import EvilHaxe.Unify.Monomorph

namespace EvilHaxe.Unify.Overloads

/-! ## `attempt_calls` -/

/-- What binding and constraining write. -/
inductive Write where
  | create
  | addUpConstraint (m : Nat) (constr : Ty × Option String)
  | addDownConstraint (m : Nat) (constr : Constraint)
  | setType (m : Nat) (t : Option Ty)
  | doBind (m : Nat) (t : Ty)

def Write.run (h : Heap) : Write → Heap
  | .create => h.create
  | .addUpConstraint m constr => Unify.addUpConstraint h m constr
  | .addDownConstraint m constr => Unify.addDownConstraint h m constr
  | .setType m t => h.setType m t
  | .doBind m t => Unify.doBind h m t

def runWrites (h : Heap) (ws : List Write) : Heap := ws.foldl Write.run h

inductive Message where
  | callErrorUnknownIdent | callError | unknownIdent | other

inductive Err where
  | mk (message : Message) (sub : List Err)

mutual

/-- `maybe_raise_unknown_ident`: the error that it raises. -/
def unknownIdent : Err → Option Err
  | .mk .callErrorUnknownIdent sub => some (.mk .callErrorUnknownIdent sub)
  | .mk .unknownIdent sub => some (.mk .unknownIdent sub)
  | .mk .callError sub => unknownIdents sub
  | .mk .other sub => unknownIdents sub

def unknownIdents : List Err → Option Err
  | [] => none
  | err :: sub =>
    match unknownIdent err with
    | some e => some e
    | none => unknownIdents sub

end

/-- The error is a `Call_error`. -/
def Err.isCallError : Err → Bool
  | .mk .callErrorUnknownIdent _ | .mk .callError _ => true
  | .mk .unknownIdent _ | .mk .other _ => false

/-- The monomorphs and those of the function, with their positions. -/
structure Ctx where
  heap : Heap
  perfunction : List (Nat × Nat)

variable {Cf Candidate Display : Type}

/-- How `attempt_call` ends: with what it has written, what it has registered, and the delayed display that is extracted. -/
structure Attempt (Candidate Display : Type) where
  writes : List Write
  perfunction : List (Nat × Nat)
  result : Except Err Candidate
  display : Option Display

/-- The snapshot: bindings and down constraints. -/
def knownMonos (s : Ctx) : List (Nat × Option Ty × List Constraint) :=
  s.perfunction.map fun m => (m.1, s.heap.type m.1, s.heap.down m.1)

def restore (h : Heap) (known : List (Nat × Option Ty × List Constraint)) : Heap :=
  known.foldl (fun h m => (h.setType m.1 m.2.1).setDown m.1 m.2.2) h

/-- What a rejected attempt leaves. -/
def rejected (s : Ctx) (a : Attempt Candidate Display) : Ctx :=
  ⟨restore (runWrites s.heap a.writes) (knownMonos s), s.perfunction⟩

/-- What an attempt that succeeds leaves. -/
def accepted (s : Ctx) (a : Attempt Candidate Display) : Ctx := ⟨runWrites s.heap a.writes, s.perfunction⟩

variable (attemptCall : Cf → Ctx → Attempt Candidate Display) (overloadProper : Bool)

/-- The loop of `attempt_calls`: the candidates, and the failures with their errors and displays. -/
def attemptCalls : List Cf → Ctx → Except Err (List Candidate × List (Cf × Err × Option Display)) × Ctx
  | [], s => (.ok ([], []), s)
  | cf :: candidates, s =>
    let a := attemptCall cf s
    match a.result with
    | .ok candidate =>
      if overloadProper then
        let (r, s) := attemptCalls candidates (accepted s a)
        (r.map fun l => (candidate :: l.1, l.2), s)
      else (.ok ([candidate], []), accepted s a)
    | .error err =>
      if err.isCallError then
        match unknownIdent err with
        | some err => (.error err, rejected s a)
        | none =>
          let (r, s) := attemptCalls candidates (rejected s a)
          (r.map fun l => (l.1, (cf, err, a.display) :: l.2), s)
      else (.error err, ⟨runWrites s.heap a.writes, a.perfunction⟩)

/-! ## What is undone -/

/-- In the loop over the candidates, `cf` is attempted in the last state and rejected with a `Call_error`. -/
inductive Rejects : List Cf → Ctx → Cf → Ctx → Prop
  | here {cf : Cf} {candidates : List Cf} {s : Ctx} {err : Err} (h : (attemptCall cf s).result = .error err)
      (hcall : err.isCallError = true) : Rejects (cf :: candidates) s cf s
  | behindCandidate {cf cf' : Cf} {candidates : List Cf} {s s' : Ctx} {candidate : Candidate}
      (h : (attemptCall cf s).result = .ok candidate) (hproper : overloadProper = true)
      (hr : Rejects candidates (accepted s (attemptCall cf s)) cf' s') : Rejects (cf :: candidates) s cf' s'
  | behindFailure {cf cf' : Cf} {candidates : List Cf} {s s' : Ctx} {err : Err}
      (h : (attemptCall cf s).result = .error err) (hcall : err.isCallError = true) (hident : unknownIdent err = none)
      (hr : Rejects candidates (rejected s (attemptCall cf s)) cf' s') : Rejects (cf :: candidates) s cf' s'

/-- The monomorphs of the function are as they were. -/
def NoTrace (s s' : Ctx) : Prop :=
  ∀ m ∈ s.perfunction, s'.heap.type m.1 = s.heap.type m.1 ∧ s'.heap.down m.1 = s.heap.down m.1 ∧
    s'.heap.up m.1 = s.heap.up m.1

/-- A write to a heap leaves the up constraints of `m` as they are. -/
def Write.Leaves (m : Nat) (h : Heap) : Write → Prop
  | .addUpConstraint x _ => x ≠ m
  | .addDownConstraint x (.mMono y name) => y = m → h.up m = (.tMono x, name) :: h.up x
  | .doBind x _ => x = m → h.up m = []
  | .create | .addDownConstraint _ _ | .setType _ _ => True

/-- Each write of an attempt leaves the up constraints of `m` as they are. -/
def Spares (m : Nat) : Heap → List Write → Prop
  | _, [] => True
  | h, w :: ws => w.Leaves m h ∧ Spares m (w.run h) ws

/-! ## The snapshot -/

variable {attemptCall overloadProper} {m x : Nat} {h : Heap}

theorem up_restore (l : List (Nat × Option Ty × List Constraint)) (h : Heap) : (restore h l).up x = h.up x := by
  induction l generalizing h with
  | nil => rfl
  | cons e l ih =>
    rw [restore, List.foldl_cons]
    exact (ih _).trans (by rw [Heap.up_setDown, Heap.up_setType])

/-- A monomorph of the snapshot gets back its binding and its down constraints. -/
theorem restore_known {l : List (Nat × Option Ty × List Constraint)} {t : Option Ty} {c : List Constraint}
    (hall : ∀ e ∈ l, e.1 = x → e.2 = (t, c)) (h : Heap)
    (hex : (h.type x = t ∧ h.down x = c) ∨ ∃ e ∈ l, e.1 = x) :
    (restore h l).type x = t ∧ (restore h l).down x = c := by
  induction l generalizing h with
  | nil =>
    obtain hx | ⟨e, he, -⟩ := hex
    · exact hx
    · exact absurd he List.not_mem_nil
  | cons e l ih =>
    refine ih (fun e he => hall e (List.mem_cons_of_mem _ he)) _ ?_
    by_cases hx : e.1 = x
    · have he := hall e List.mem_cons_self hx
      refine .inl ⟨?_, ?_⟩
      · rw [Heap.type_setDown, Heap.type_setType, if_pos hx.symm, he]
      · rw [Heap.down_setDown, if_pos hx.symm, he]
    · obtain ⟨ht, hd⟩ | ⟨e', he', hx'⟩ := hex
      · refine .inl ⟨?_, ?_⟩
        · rw [Heap.type_setDown, Heap.type_setType, if_neg (fun e => hx e.symm), ht]
        · rw [Heap.down_setDown, if_neg (fun e => hx e.symm), Heap.down_setType, hd]
      · obtain rfl | he' := List.mem_cons.1 he'
        · exact absurd hx' hx
        · exact .inr ⟨e', he', hx'⟩

/-- Undoing a rejected attempt leaves a trace in up constraints only. -/
theorem noTrace_rejected (s : Ctx) (a : Attempt Candidate Display) :
    NoTrace s (rejected s a) ↔ ∀ m ∈ s.perfunction, (runWrites s.heap a.writes).up m.1 = s.heap.up m.1 := by
  have hup (x : Nat) : (rejected s a).heap.up x = (runWrites s.heap a.writes).up x := up_restore _ _
  constructor
  · intro hno m hm
    obtain ⟨-, -, h⟩ := hno m hm
    rwa [hup] at h
  · intro h m hm
    have hall : ∀ e ∈ knownMonos s, e.1 = m.1 → e.2 = (s.heap.type m.1, s.heap.down m.1) := by
      intro e he hx
      obtain ⟨m', -, rfl⟩ := List.mem_map.1 he
      change m'.1 = m.1 at hx
      change (s.heap.type m'.1, s.heap.down m'.1) = _
      rw [hx]
    obtain ⟨ht, hd⟩ := restore_known hall (runWrites s.heap a.writes) (.inr ⟨_, List.mem_map.2 ⟨m, hm, rfl⟩, rfl⟩)
    exact ⟨ht, hd, by rw [hup, h m hm]⟩

/-! ## The writes -/

theorem up_doBind (h : Heap) (x : Nat) (t : Ty) (m : Nat) : (doBind h x t).up m = if m = x then [] else h.up m := by
  rw [doBind, Heap.up_setUp, Heap.up_setDown, Heap.up_setType]

theorem up_addUpConstraint (h : Heap) (x : Nat) (c : Ty × Option String) (m : Nat) :
    (Unify.addUpConstraint h x c).up m = if m = x then c :: h.up x else h.up m := by
  rw [Unify.addUpConstraint]
  split
  · rw [Heap.up_setDown, Heap.up_setUp]
  · rw [Heap.up_setUp]

theorem up_addDownConstraint_mMono (h : Heap) (x y : Nat) (name : Option String) (m : Nat) :
    (Unify.addDownConstraint h x (.mMono y name)).up m = if m = y then (.tMono x, name) :: h.up x else h.up m := by
  rw [Unify.addDownConstraint, Heap.up_setUp, Heap.up_setDown, Heap.up_setDown]

/-- What one write does to the up constraints of a monomorph. -/
theorem up_run_iff (w : Write) : (w.run h).up m = h.up m ↔ w.Leaves m h := by
  cases w with
  | create => exact iff_of_true rfl trivial
  | setType x t => exact iff_of_true (Heap.up_setType h x m t) trivial
  | addUpConstraint x c =>
    rw [Write.run, up_addUpConstraint, Write.Leaves]
    split
    · next hx =>
      subst hx
      exact iff_of_false (List.cons_ne_self _ _) (fun hne => hne rfl)
    · next hx => exact iff_of_true rfl fun e => hx e.symm
  | doBind x t =>
    rw [Write.run, up_doBind, Write.Leaves]
    split
    · next hx => exact ⟨fun e _ => e.symm, fun e => (e hx.symm).symm⟩
    · next hx => exact iff_of_true rfl fun e => absurd e.symm hx
  | addDownConstraint x c =>
    cases c with
    | mMono y name =>
      rw [Write.run, up_addDownConstraint_mMono, Write.Leaves]
      split
      · next hx => exact ⟨fun e _ => e.symm, fun e => (e hx.symm).symm⟩
      · next hx => exact iff_of_true rfl fun e => absurd e.symm hx
    | mField cf => exact iff_of_true (Heap.up_setDown h x m _) trivial
    | mType t name => exact iff_of_true (Heap.up_setDown h x m _) trivial
    | mOpenStructure => exact iff_of_true (Heap.up_setDown h x m _) trivial
    | mEmptyStructure => exact iff_of_true (Heap.up_setDown h x m _) trivial

theorem Spares.up_runWrites {ws : List Write} (hs : Spares m h ws) : (runWrites h ws).up m = h.up m := by
  induction ws generalizing h with
  | nil => rfl
  | cons w ws ih =>
    obtain ⟨hw, hs⟩ := hs
    rw [runWrites, List.foldl_cons]
    exact (ih hs).trans ((up_run_iff w).2 hw)

/-- A monomorph that takes an `Int`, of a function. -/
def constrained : Ctx := ⟨Unify.addUpConstraint Heap.empty.create 0 (.tInst "Int" [], none), [(0, 0)]⟩

/-- The first argument binds the monomorph to `Int`, and the second one does not unify. -/
def failing : Attempt Unit Unit := ⟨[.doBind 0 (.tInst "Int" [])], [], .error (.mk .callError []), none⟩

end EvilHaxe.Unify.Overloads
