/-
Operator chains and the trees that respect a precedence table. A chain is an operand followed by
operators with their right operands; a tree respects the table when at every node the operators of
the two children may stand there. Each chain has exactly one such tree, and pushing the operands in
from the right, one rotation at a time, builds it.

The table is a level (lower levels bind tighter) and an associativity for each operator; operators
of one level associate alike, and those that associate to the right are the loosest.
-/
import Mathlib.Data.List.Basic

namespace Lib

/-! ## Tables, trees and chains -/

structure Fixity (Op : Type) where
  level : Op → Nat
  left : Op → Bool
  uniform : ∀ {o o'}, level o = level o' → left o = left o'
  loosest : ∀ {o} o', left o = false → level o' ≤ level o

inductive OpTree (Op A : Type) where
  | leaf (a : A)
  | node (op : Op) (l r : OpTree Op A)

namespace OpTree

variable {Op A : Type}

/-- The operator of the root. -/
def top : OpTree Op A → Option Op
  | leaf _ => none
  | node op _ _ => some op

/-- The first operand. -/
def first : OpTree Op A → A
  | leaf a => a
  | node _ l _ => l.first

/-- What follows the first operand, in order. -/
def rest : OpTree Op A → List (Op × A)
  | leaf _ => []
  | node op l r => l.rest ++ (op, r.first) :: r.rest

variable (F : Fixity Op)

/-- `child` may be the root of the left operand of `op`. -/
def LeftOk (op child : Op) : Prop :=
  F.level child < F.level op ∨ (F.level child = F.level op ∧ F.left child = true)

/-- `child` may be the root of the right operand of `op`. -/
def RightOk (op child : Op) : Prop :=
  F.level child < F.level op ∨ (F.level child = F.level op ∧ F.left child = false)

/-- The tree respects the table. -/
def Respects : OpTree Op A → Prop
  | leaf _ => True
  | node op l r =>
    (∀ o ∈ l.top, LeftOk F op o) ∧ (∀ o ∈ r.top, RightOk F op o) ∧ l.Respects ∧ r.Respects

/-- `op` takes the first operand of a tree whose root is `op'` away from `op'`. -/
def swaps (op op' : Op) : Bool := F.left op && decide (F.level op ≤ F.level op')

/-- Put an operand and an operator in front of a tree. -/
def insert (op : Op) (a : A) : OpTree Op A → OpTree Op A
  | leaf b => node op (leaf a) (leaf b)
  | node op' l r =>
    if swaps F op op' then node op' (insert op a l) r else node op (leaf a) (node op' l r)

/-- The tree of a chain, built from its right end. -/
def build (a : A) : List (Op × A) → OpTree Op A
  | [] => leaf a
  | (op, b) :: s => insert F op a (build b s)

/-! ## Building keeps the order and respects the table -/

@[simp] theorem first_insert (op : Op) (a : A) (t : OpTree Op A) : (insert F op a t).first = a := by
  induction t with
  | leaf b => rfl
  | node op' l r ihl ihr =>
    unfold insert
    split
    · exact ihl
    · rfl

@[simp] theorem rest_insert (op : Op) (a : A) (t : OpTree Op A) :
    (insert F op a t).rest = (op, t.first) :: t.rest := by
  induction t with
  | leaf b => rfl
  | node op' l r ihl ihr =>
    unfold insert
    split
    · simp only [rest, ihl, first, List.cons_append]
    · rfl

@[simp] theorem first_build (a : A) (s : List (Op × A)) : (build F a s).first = a := by
  cases s with
  | nil => rfl
  | cons p s => exact first_insert F p.1 a _

@[simp] theorem rest_build (a : A) (s : List (Op × A)) : (build F a s).rest = s := by
  induction s generalizing a with
  | nil => rfl
  | cons p s ih => rw [build, rest_insert, first_build, ih]

variable {F}

/-- An operator that does not swap may keep the tree as its right operand. -/
theorem rightOk_of_not_swaps {op op' : Op} (h : ¬ swaps F op op' = true) : RightOk F op op' := by
  simp only [swaps, Bool.and_eq_true, decide_eq_true_eq, not_and, Nat.not_le] at h
  cases hl : F.left op with
  | true => exact .inl (h hl)
  | false =>
    rcases Nat.lt_or_eq_of_le (F.loosest op' hl) with hlt | heq
    · exact .inl hlt
    · exact .inr ⟨heq, (F.uniform heq).trans hl⟩

theorem leftOk_of_swaps {op op' : Op} (h : swaps F op op' = true) : LeftOk F op' op := by
  simp only [swaps, Bool.and_eq_true, decide_eq_true_eq] at h
  rcases Nat.lt_or_eq_of_le h.2 with hlt | heq
  · exact .inl hlt
  · exact .inr ⟨heq, h.1⟩

theorem not_swaps_of_rightOk {op op' : Op} (h : RightOk F op op') : swaps F op op' = false := by
  unfold swaps
  rcases h with hlt | ⟨heq, hl⟩
  · have : ¬ F.level op ≤ F.level op' := by omega
    simp [this]
  · rw [(F.uniform heq).symm, hl]; rfl

/-- The new root is the new operator or the old root. -/
theorem top_insert {op o : Op} {a : A} {t : OpTree Op A} (h : o ∈ (insert F op a t).top) :
    o = op ∨ o ∈ t.top := by
  cases t with
  | leaf b => exact .inl (Option.some.inj h).symm
  | node op' l r =>
    unfold insert at h
    split at h
    · exact .inr h
    · exact .inl (Option.some.inj h).symm

theorem respects_insert (op : Op) (a : A) {t : OpTree Op A} (ht : Respects F t) :
    Respects F (insert F op a t) := by
  induction t with
  | leaf b => exact ⟨nofun, nofun, trivial, trivial⟩
  | node op' l r ihl ihr =>
    obtain ⟨hl, hr, hrl, hrr⟩ := ht
    unfold insert
    split
    · rename_i hs
      refine ⟨fun o ho => ?_, hr, ihl hrl, hrr⟩
      rcases top_insert ho with rfl | ho
      · exact leftOk_of_swaps hs
      · exact hl o ho
    · rename_i hs
      refine ⟨nofun, fun o ho => ?_, trivial, hl, hr, hrl, hrr⟩
      obtain rfl := Option.some.inj ho
      exact rightOk_of_not_swaps hs

theorem respects_build (a : A) (s : List (Op × A)) : Respects F (build F a s) := by
  induction s generalizing a with
  | nil => exact trivial
  | cons p s ih => exact respects_insert p.1 a (ih p.2)

/-! ## Uniqueness -/

variable (F) in
/-- Insert the operands of a tree one by one, from its right end, in front of `op` and `r`. -/
def insertAll : OpTree Op A → Op → OpTree Op A → OpTree Op A
  | leaf a, op, r => insert F op a r
  | node o l1 l2, op, r => insertAll l1 o (insertAll l2 op r)

/-- Every operator of the tree swaps with `op`. -/
def AllSwap (F : Fixity Op) (op : Op) : OpTree Op A → Prop
  | leaf _ => True
  | node o l r => swaps F o op = true ∧ l.AllSwap F op ∧ r.AllSwap F op

theorem swaps_of_leftOk {op o : Op} (h : LeftOk F op o) : swaps F o op = true := by
  unfold swaps
  rcases h with hlt | ⟨heq, hl⟩
  · have hl : F.left o = true := by
      cases hl : F.left o with
      | true => rfl
      | false => have := F.loosest op hl; omega
    simp [hl, Nat.le_of_lt hlt]
  · simp [hl, heq]

theorem swaps_trans {o op op' : Op} (h : F.level o ≤ F.level op) (hs : swaps F op op' = true) :
    swaps F o op' = true := by
  simp only [swaps, Bool.and_eq_true, decide_eq_true_eq] at hs ⊢
  refine ⟨?_, Nat.le_trans h hs.2⟩
  cases hl : F.left o with
  | true => rfl
  | false =>
    have heq : F.level o = F.level op := Nat.le_antisymm h (F.loosest op hl)
    exact absurd (hl.symm.trans ((F.uniform heq).trans hs.1)) (by decide)

/-- In a tree that respects the table, an operator below the root is no looser than the root. -/
theorem allSwap_of_respects {op : Op} {t : OpTree Op A} (ht : Respects F t)
    (htop : ∀ o ∈ t.top, swaps F o op = true) : AllSwap F op t := by
  induction t with
  | leaf a => exact trivial
  | node o l r ihl ihr =>
    obtain ⟨hl, hr, hrl, hrr⟩ := ht
    have ho := htop o rfl
    refine ⟨ho, ihl hrl fun c hc => ?_, ihr hrr fun c hc => ?_⟩
    · have hle : F.level c ≤ F.level o := by rcases hl c hc with h | h <;> omega
      exact swaps_trans hle ho
    · have hle : F.level c ≤ F.level o := by rcases hr c hc with h | h <;> omega
      exact swaps_trans hle ho

/-- Operators that swap with `op` never reach its right operand. -/
theorem insertAll_node {op : Op} {t : OpTree Op A} (ht : AllSwap F op t) {o : Op}
    (ho : swaps F o op = true) (l r : OpTree Op A) :
    insertAll F t o (node op l r) = node op (insertAll F t o l) r := by
  induction t generalizing o l with
  | leaf a => simp only [insertAll, insert, ho, if_true]
  | node o' l1 l2 ih1 ih2 =>
    obtain ⟨hs, h1, h2⟩ := ht
    simp only [insertAll]
    rw [ih2 h2 ho, ih1 h1 hs]

/-- Inserting the operands of the left child of a tree that respects the table gives the tree. -/
theorem insertAll_eq {l : OpTree Op A} {op : Op} {r : OpTree Op A}
    (h : Respects F (node op l r)) : insertAll F l op r = node op l r := by
  induction l generalizing op r with
  | leaf a =>
    cases r with
    | leaf b => rfl
    | node op' r1 r2 =>
      have hs := not_swaps_of_rightOk (h.2.1 op' rfl)
      simp [insertAll, insert, hs]
  | node o l1 l2 ih1 ih2 =>
    obtain ⟨hl, hr, ⟨hl1, hl2, hr1, hr2⟩, hrr⟩ := h
    have ho : LeftOk F op o := hl o rfl
    have hswap := swaps_of_leftOk ho
    have hright : Respects F (node op l2 r) := by
      refine ⟨fun c hc => ?_, hr, hr2, hrr⟩
      rcases hl2 c hc with hlt | ⟨heq, hc'⟩
      · rcases ho with h | h
        · exact .inl (by omega)
        · exact .inl (by omega)
      · rcases ho with h | ⟨_, hlo⟩
        · exact .inl (by omega)
        · exact absurd (hc'.symm.trans ((F.uniform heq).trans hlo)) (by decide)
    have hall : AllSwap F op l1 := by
      refine allSwap_of_respects hr1 fun c hc => swaps_trans ?_ hswap
      rcases hl1 c hc with h | h <;> omega
    show insertAll F l1 o (insertAll F l2 op r) = _
    rw [ih2 hright, insertAll_node hall hswap, ih1 ⟨hl1, hl2, hr1, hr2⟩]

theorem build_append (t : OpTree Op A) (op : Op) (b : A) (s : List (Op × A)) :
    build F t.first (t.rest ++ (op, b) :: s) = insertAll F t op (build F b s) := by
  induction t generalizing op b s with
  | leaf a => rfl
  | node o l1 l2 ih1 ih2 =>
    simp only [first, rest, insertAll, List.append_assoc, List.cons_append]
    rw [ih1, ih2]

/-- A tree that respects the table is the one built from its chain. -/
theorem eq_build {t : OpTree Op A} (ht : Respects F t) : t = build F t.first t.rest := by
  induction t with
  | leaf a => rfl
  | node op l r ihl ihr =>
    have hr : build F r.first r.rest = r := (ihr ht.2.2.2).symm
    simp only [first, rest]
    rw [build_append, hr, insertAll_eq ht]

/-- Existence and uniqueness: the built tree is the one tree of the chain that respects the
table. -/
theorem eq_build_iff {t : OpTree Op A} {a : A} {s : List (Op × A)} :
    t = build F a s ↔ Respects F t ∧ t.first = a ∧ t.rest = s := by
  constructor
  · rintro rfl
    exact ⟨respects_build a s, first_build F a s, rest_build F a s⟩
  · rintro ⟨ht, rfl, rfl⟩
    exact eq_build ht

end OpTree

/-! Operator chains read under any table of levels and associativities. A tree stands as it is written if, at every node,
the operators of the children may stand there without parentheses; each chain is the text of exactly one such tree. -/

/-- A level for each operator, the lower ones binding tighter. Operators of one level associate alike. -/
structure Levels (Op : Type) where
  level : Op → Nat
  left : Op → Bool
  uniform : ∀ {o o'}, level o = level o' → left o = left o'

/-- What holds of every operand and of every operator of a tree. -/
def OpTree.All {Op A : Type} (P : A → Prop) (Q : Op → Prop) : OpTree Op A → Prop
  | .leaf a => P a
  | .node op l r => Q op ∧ All P Q l ∧ All P Q r

theorem OpTree.all_iff {Op A : Type} {P : A → Prop} {Q : Op → Prop} {t : OpTree Op A} :
    t.All P Q ↔ P t.first ∧ ∀ p ∈ t.rest, Q p.1 ∧ P p.2 := by
  induction t with
  | leaf a => exact ⟨fun h => ⟨h, nofun⟩, fun h => h.1⟩
  | node op l r ihl ihr =>
    unfold All
    rw [ihl, ihr, first, rest]
    constructor
    · rintro ⟨hop, ⟨hl, hls⟩, hr, hrs⟩
      refine ⟨hl, fun p hp => ?_⟩
      rcases List.mem_append.1 hp with hp | hp
      · exact hls p hp
      · rcases List.mem_cons.1 hp with rfl | hp
        · exact ⟨hop, hr⟩
        · exact hrs p hp
    · rintro ⟨hl, h⟩
      obtain ⟨hop, hr⟩ := h (op, r.first) (List.mem_append_right _ List.mem_cons_self)
      exact ⟨hop, ⟨hl, fun p hp => h p (List.mem_append_left _ hp)⟩, hr,
        fun p hp => h p (List.mem_append_right _ (List.mem_cons_of_mem _ hp))⟩

namespace Levels

variable {Op A : Type} (F : Levels Op)

/-- `child` is the left operand of `op`, without parentheses. -/
def OnLeft (op child : Op) : Prop := F.level child < F.level op ∨ F.level child = F.level op ∧ F.left child = true

/-- `child` is the right operand of `op`, without parentheses. -/
def OnRight (op child : Op) : Prop := F.level child < F.level op ∨ F.level child = F.level op ∧ F.left child = false

instance (op child : Op) : Decidable (F.OnRight op child) := inferInstanceAs (Decidable (_ ∨ _))

def Stands : OpTree Op A → Prop
  | .leaf _ => True
  | .node op l r => (∀ o ∈ l.top, F.OnLeft op o) ∧ (∀ o ∈ r.top, F.OnRight op o) ∧ Stands l ∧ Stands r

/-- Read an operand and an operator in front of what has been read. -/
def shift (op : Op) (a : A) : OpTree Op A → OpTree Op A
  | .leaf b => .node op (.leaf a) (.leaf b)
  | .node op' l r => if F.OnRight op op' then .node op (.leaf a) (.node op' l r) else .node op' (shift op a l) r

/-- Read a chain. -/
def read (a : A) : List (Op × A) → OpTree Op A
  | [] => .leaf a
  | (op, b) :: s => F.shift op a (read b s)

/-- Read the operands of a tree in front of `op` and what has been read. -/
def shiftAll : OpTree Op A → Op → OpTree Op A → OpTree Op A
  | .leaf a, op, r => F.shift op a r
  | .node o l1 l2, op, r => shiftAll l1 o (shiftAll l2 op r)

variable {F}

/-! ## Reading gives a tree that stands -/

theorem onLeft_of_not_onRight {op op' : Op} (h : ¬ F.OnRight op op') : F.OnLeft op' op := by
  unfold OnRight at h
  have hle : F.level op ≤ F.level op' := Nat.le_of_not_lt fun hlt => h (.inl hlt)
  rcases Nat.lt_or_eq_of_le hle with hlt | heq
  · exact .inl hlt
  · refine .inr ⟨heq, ?_⟩
    rw [F.uniform heq]
    exact Bool.not_eq_false _ |>.mp fun hl => h (.inr ⟨heq.symm, hl⟩)

theorem not_onRight_of_onLeft {op op' : Op} (h : F.OnLeft op' op) : ¬ F.OnRight op op' := by
  rintro (hlt | ⟨heq, hl⟩)
  · rcases h with h | ⟨h, -⟩ <;> omega
  · rcases h with h | ⟨h, hl'⟩
    · omega
    · exact absurd ((F.uniform h).symm.trans hl') (by rw [hl]; exact Bool.false_ne_true)

theorem top_shift {op o : Op} {a : A} {t : OpTree Op A} (h : o ∈ (F.shift op a t).top) : o = op ∨ o ∈ t.top := by
  cases t with
  | leaf b => exact .inl (Option.some.inj h).symm
  | node op' l r =>
    unfold shift at h
    split at h
    · exact .inl (Option.some.inj h).symm
    · exact .inr h

theorem stands_shift (op : Op) (a : A) {t : OpTree Op A} (ht : F.Stands t) : F.Stands (F.shift op a t) := by
  induction t with
  | leaf b => exact ⟨nofun, nofun, trivial, trivial⟩
  | node op' l r ihl _ =>
    unfold shift
    split
    · rename_i hr
      refine ⟨nofun, fun o ho => ?_, trivial, ht⟩
      obtain rfl := Option.some.inj ho
      exact hr
    · rename_i hr
      obtain ⟨hl, hr', hsl, hsr⟩ := ht
      refine ⟨fun o ho => ?_, hr', ihl hsl, hsr⟩
      rcases top_shift ho with rfl | ho
      · exact onLeft_of_not_onRight hr
      · exact hl o ho

theorem stands_read (a : A) (s : List (Op × A)) : F.Stands (F.read a s) := by
  induction s generalizing a with
  | nil => exact trivial
  | cons p s ih => exact stands_shift p.1 a (ih p.2)

@[simp] theorem first_shift (op : Op) (a : A) (t : OpTree Op A) : (F.shift op a t).first = a := by
  induction t with
  | leaf b => rfl
  | node op' l r ihl ihr =>
    unfold shift
    split
    · rfl
    · exact ihl

@[simp] theorem rest_shift (op : Op) (a : A) (t : OpTree Op A) : (F.shift op a t).rest = (op, t.first) :: t.rest := by
  induction t with
  | leaf b => rfl
  | node op' l r ihl ihr =>
    unfold shift
    split
    · rfl
    · simp only [OpTree.rest, ihl, OpTree.first, List.cons_append]

@[simp] theorem first_read (a : A) (s : List (Op × A)) : (F.read a s).first = a := by
  cases s with
  | nil => rfl
  | cons p s => exact first_shift p.1 a _

@[simp] theorem rest_read (a : A) (s : List (Op × A)) : (F.read a s).rest = s := by
  induction s generalizing a with
  | nil => rfl
  | cons p s ih => rw [read, rest_shift, first_read, ih]

/-! ## Uniqueness -/

/-- An operator on the left of one that is on the left of `op` is on the left of `op`. -/
theorem OnLeft.trans_le {op o o' : Op} (h : F.OnLeft op o) (hle : F.level o' ≤ F.level o) : F.OnLeft op o' := by
  rcases h with h | ⟨heq, hl⟩
  · exact .inl (by omega)
  · rcases Nat.lt_or_eq_of_le hle with hlt | heq'
    · exact .inl (by omega)
    · exact .inr ⟨by omega, (F.uniform heq').trans hl⟩

/-- No operator of the tree lets `op` stand on its right. -/
def AllOnLeft (F : Levels Op) (op : Op) : OpTree Op A → Prop
  | .leaf _ => True
  | .node o l r => F.OnLeft op o ∧ AllOnLeft F op l ∧ AllOnLeft F op r

theorem allOnLeft_of_stands {op : Op} {t : OpTree Op A} (ht : F.Stands t) (htop : ∀ o ∈ t.top, F.OnLeft op o) :
    F.AllOnLeft op t := by
  induction t with
  | leaf a => exact trivial
  | node o l r ihl ihr =>
    obtain ⟨hl, hr, hsl, hsr⟩ := ht
    have ho := htop o rfl
    refine ⟨ho, ihl hsl fun c hc => ho.trans_le ?_, ihr hsr fun c hc => ho.trans_le ?_⟩
    · rcases hl c hc with h | h <;> omega
    · rcases hr c hc with h | h <;> omega

/-- Operators that do not let `op` stand on their right never reach its right operand. -/
theorem shiftAll_node {op : Op} {t : OpTree Op A} (ht : F.AllOnLeft op t) {o : Op} (ho : F.OnLeft op o)
    (l r : OpTree Op A) : F.shiftAll t o (.node op l r) = .node op (F.shiftAll t o l) r := by
  induction t generalizing o l with
  | leaf a => exact if_neg (not_onRight_of_onLeft ho)
  | node o' l1 l2 ih1 ih2 =>
    obtain ⟨hs, h1, h2⟩ := ht
    unfold shiftAll
    rw [ih2 h2 ho, ih1 h1 hs]

theorem shiftAll_eq {l : OpTree Op A} {op : Op} {r : OpTree Op A} (h : F.Stands (.node op l r)) :
    F.shiftAll l op r = .node op l r := by
  induction l generalizing op r with
  | leaf a =>
    cases r with
    | leaf b => rfl
    | node op' r1 r2 => exact if_pos (h.2.1 op' rfl)
  | node o l1 l2 ih1 ih2 =>
    obtain ⟨hl, hr, ⟨hl1, hl2, hs1, hs2⟩, hsr⟩ := h
    have ho : F.OnLeft op o := hl o rfl
    have hright : F.Stands (.node op l2 r) := by
      refine ⟨fun c hc => ho.trans_le ?_, hr, hs2, hsr⟩
      rcases hl2 c hc with h | h <;> omega
    have hall : F.AllOnLeft op l1 := by
      refine allOnLeft_of_stands hs1 fun c hc => ho.trans_le ?_
      rcases hl1 c hc with h | h <;> omega
    unfold shiftAll
    rw [ih2 hright, shiftAll_node hall ho, ih1 ⟨hl1, hl2, hs1, hs2⟩]

theorem read_append (t : OpTree Op A) (op : Op) (b : A) (s : List (Op × A)) :
    F.read t.first (t.rest ++ (op, b) :: s) = F.shiftAll t op (F.read b s) := by
  induction t generalizing op b s with
  | leaf a => rfl
  | node o l1 l2 ih1 ih2 =>
    simp only [OpTree.first, OpTree.rest, shiftAll, List.append_assoc, List.cons_append]
    rw [ih1, ih2]

/-- A tree that stands is what its text is read as. -/
theorem read_of_stands {t : OpTree Op A} (ht : F.Stands t) : F.read t.first t.rest = t := by
  induction t with
  | leaf a => rfl
  | node op l r ihl ihr =>
    simp only [OpTree.first, OpTree.rest]
    rw [read_append, ihr ht.2.2.2, shiftAll_eq ht]

end Levels

end Lib
