/-
`PriorityQueue`: trees whose least priority is at the root, whatever way they are made.
-/
import Mathlib.Algebra.Order.Group.Multiset

namespace EvilHaxe.Ds.PriorityQueue

/-- `t`. -/
inductive Queue (α : Type) where
  | empty
  | node (prio : Int) (elt : α) (left right : Queue α)
  deriving DecidableEq

open Queue

variable {α : Type}

def insert : Queue α → Int → α → Queue α
  | empty, prio, elt => node prio elt empty empty
  | node p e left right, prio, elt =>
    if prio ≤ p then node prio elt (insert right p e) left else node p e (insert right prio elt) left

/-- `none` is `Queue_is_empty`. -/
def removeTop : Queue α → Option (Queue α)
  | empty => none
  | node _ _ left empty => some left
  | node _ _ empty right => some right
  | node _ _ (node lprio lelt l1 l2) (node rprio relt r1 r2) =>
    if lprio ≤ rprio then (removeTop (node lprio lelt l1 l2)).map fun q => node lprio lelt q (node rprio relt r1 r2)
    else (removeTop (node rprio relt r1 r2)).map fun q => node rprio relt (node lprio lelt l1 l2) q

def extract : Queue α → Option (Int × α × Queue α)
  | empty => none
  | node prio elt left right => (removeTop (node prio elt left right)).map fun q => (prio, elt, q)

def isEmpty : Queue α → Bool
  | empty => true
  | node .. => false

def fold {β : Type} (f : β → Int → α → β) : Queue α → β → β
  | empty, acc => acc
  | node prio elt left empty, acc => fold f left (f acc prio elt)
  | node prio elt empty right, acc => fold f right (f acc prio elt)
  | node prio elt (node lprio lelt l1 l2) (node rprio relt r1 r2), acc =>
    let acc := f acc prio elt
    if lprio ≤ rprio then fold f (node rprio relt r1 r2) (fold f (node lprio lelt l1 l2) acc)
    else fold f (node lprio lelt l1 l2) (fold f (node rprio relt r1 r2) acc)

def merge (queue1 queue2 : Queue α) : Queue α := fold insert queue1 queue2

/-! ## What a queue holds -/

def elements : Queue α → Multiset (Int × α)
  | empty => 0
  | node prio elt left right => (prio, elt) ::ₘ (elements left + elements right)

@[simp] theorem elements_empty : elements (empty : Queue α) = 0 := rfl

@[simp] theorem elements_node (prio : Int) (elt : α) (left right : Queue α) :
    elements (node prio elt left right) = (prio, elt) ::ₘ (elements left + elements right) := rfl

theorem elements_insert (q : Queue α) (prio : Int) (elt : α) : elements (insert q prio elt) = (prio, elt) ::ₘ elements q := by
  induction q generalizing prio elt with
  | empty => rfl
  | node p e left right _ ih =>
    rw [insert]
    split
    · rw [elements_node, ih, elements_node, Multiset.cons_add, add_comm (elements right)]
    · rw [elements_node, ih, elements_node, Multiset.cons_add, Multiset.cons_swap, add_comm (elements right)]

/-- The root has the least priority, and so in each subtree. -/
def Heap : Queue α → Prop
  | empty => True
  | node prio _ left right => (∀ x ∈ elements left + elements right, prio ≤ x.1) ∧ Heap left ∧ Heap right

theorem Heap.root_le {prio : Int} {elt : α} {left right : Queue α} (h : Heap (node prio elt left right)) :
    ∀ x ∈ elements (node prio elt left right), prio ≤ x.1 := by
  intro x hx
  rw [elements_node, Multiset.mem_cons] at hx
  rcases hx with rfl | hx
  · exact Int.le_refl _
  · exact h.1 x hx

theorem heap_insert {q : Queue α} (h : Heap q) (prio : Int) (elt : α) : Heap (insert q prio elt) := by
  induction q generalizing prio elt with
  | empty => exact ⟨by simp, trivial, trivial⟩
  | node p e left right _ ih =>
    obtain ⟨hroot, hleft, hright⟩ := h
    rw [insert]
    split
    next hle =>
      refine ⟨fun x hx => ?_, ih hright p e, hleft⟩
      rw [elements_insert, Multiset.cons_add, Multiset.mem_cons, add_comm] at hx
      rcases hx with rfl | hx
      · exact hle
      · exact Int.le_trans hle (hroot x hx)
    next hlt =>
      refine ⟨fun x hx => ?_, ih hright prio elt, hleft⟩
      rw [elements_insert, Multiset.cons_add, Multiset.mem_cons, add_comm] at hx
      rcases hx with rfl | hx
      · exact Int.le_of_lt (Int.not_le.1 hlt)
      · exact hroot x hx

/-- The top is removed, and all else stays in order. -/
theorem removeTop_spec {queue : Queue α} {prio : Int} {elt : α} {left right : Queue α} (heq : queue = node prio elt left right) :
    ∃ q, removeTop queue = some q ∧ elements q = elements left + elements right ∧ (Heap left → Heap right → Heap q) := by
  induction queue generalizing prio elt left right with
  | empty => cases heq
  | node p e l r ihl ihr =>
    obtain ⟨rfl, rfl, rfl, rfl⟩ := node.inj heq
    cases l with
    | empty =>
      cases r with
      | empty => exact ⟨empty, rfl, rfl, fun h _ => h⟩
      | node rprio relt r1 r2 => exact ⟨node rprio relt r1 r2, rfl, by rw [elements_empty, zero_add], fun _ h => h⟩
    | node lprio lelt l1 l2 =>
      cases r with
      | empty => exact ⟨node lprio lelt l1 l2, rfl, by rw [elements_empty, add_zero], fun h _ => h⟩
      | node rprio relt r1 r2 =>
        rw [removeTop]
        split
        next hle =>
          obtain ⟨q, hq, helements, hheap⟩ := ihl rfl
          refine ⟨node lprio lelt q (node rprio relt r1 r2), by rw [hq, Option.map_some], ?_, fun hl hr => ⟨?_, hheap hl.2.1 hl.2.2, hr⟩⟩
          · rw [elements_node, helements, ← Multiset.cons_add, ← elements_node]
          · intro x hx
            rw [helements, Multiset.mem_add] at hx
            rcases hx with hx | hx
            · exact hl.1 x hx
            · exact Int.le_trans hle (hr.root_le x hx)
        next hlt =>
          have hle : rprio ≤ lprio := Int.le_of_lt (Int.not_le.1 hlt)
          obtain ⟨q, hq, helements, hheap⟩ := ihr rfl
          refine ⟨node rprio relt (node lprio lelt l1 l2) q, by rw [hq, Option.map_some], ?_, fun hl hr => ⟨?_, hl, hheap hr.2.1 hr.2.2⟩⟩
          · rw [elements_node, helements, ← Multiset.add_cons, ← elements_node rprio]
          · intro x hx
            rw [helements, Multiset.mem_add] at hx
            rcases hx with hx | hx
            · exact Int.le_trans hle (hl.root_le x hx)
            · exact hr.1 x hx

theorem extract_eq_none {q : Queue α} : extract q = none ↔ elements q = 0 := by
  cases q with
  | empty => exact ⟨fun _ => rfl, fun _ => rfl⟩
  | node prio elt left right =>
    obtain ⟨q, hq, -⟩ := removeTop_spec (rfl : node prio elt left right = _)
    rw [extract, hq, Option.map_some]
    exact ⟨nofun, fun h => absurd h (Multiset.cons_ne_zero)⟩

/-- An element of least priority is taken out. -/
theorem extract_spec {q q' : Queue α} {prio : Int} {elt : α} (h : extract q = some (prio, elt, q')) :
    elements q = (prio, elt) ::ₘ elements q' ∧ (Heap q → Heap q' ∧ ∀ x ∈ elements q, prio ≤ x.1) := by
  cases q with
  | empty => cases h
  | node p e left right =>
    obtain ⟨q0, hq, helements, hheap⟩ := removeTop_spec (rfl : node p e left right = _)
    simp only [extract, hq, Option.map_some, Option.some.injEq, Prod.mk.injEq] at h
    obtain ⟨rfl, rfl, rfl⟩ := h
    exact ⟨by rw [elements_node, helements], fun hq => ⟨hheap hq.2.1 hq.2.2, hq.root_le⟩⟩

/-! ## Folding and merging -/

/-- The elements in the order in which `fold` comes to them. -/
def order : Queue α → List (Int × α)
  | empty => []
  | node prio elt left empty => (prio, elt) :: order left
  | node prio elt empty right => (prio, elt) :: order right
  | node prio elt (node lprio lelt l1 l2) (node rprio relt r1 r2) =>
    (prio, elt) :: if lprio ≤ rprio then order (node lprio lelt l1 l2) ++ order (node rprio relt r1 r2)
      else order (node rprio relt r1 r2) ++ order (node lprio lelt l1 l2)

theorem fold_eq {β : Type} (f : β → Int → α → β) (q : Queue α) (acc : β) :
    fold f q acc = (order q).foldl (fun acc x => f acc x.1 x.2) acc := by
  induction q generalizing acc with
  | empty => rfl
  | node prio elt left right ihl ihr =>
    cases left with
    | empty =>
      cases right with
      | empty => rfl
      | node rprio relt r1 r2 => exact ihr _
    | node lprio lelt l1 l2 =>
      cases right with
      | empty => exact ihl _
      | node rprio relt r1 r2 =>
        rw [fold, order, List.foldl_cons]
        split
        next => rw [List.foldl_append, ← ihl, ← ihr]
        next => rw [List.foldl_append, ← ihl, ← ihr]

theorem coe_order (q : Queue α) : (order q : Multiset (Int × α)) = elements q := by
  induction q with
  | empty => rfl
  | node prio elt left right ihl ihr =>
    cases left with
    | empty =>
      cases right with
      | empty => rfl
      | node rprio relt r1 r2 =>
        rw [order, ← Multiset.cons_coe, ihr, elements_node prio, elements_empty, zero_add]
        exact nofun
    | node lprio lelt l1 l2 =>
      cases right with
      | empty => rw [order, ← Multiset.cons_coe, ihl, elements_node prio, elements_empty, add_zero]
      | node rprio relt r1 r2 =>
        rw [order, ← Multiset.cons_coe, elements_node, ← ihl, ← ihr]
        split
        next => rw [← Multiset.coe_add]
        next => rw [← Multiset.coe_add, add_comm]

theorem foldl_insert (l : List (Int × α)) (q : Queue α) :
    elements (l.foldl (fun acc x => insert acc x.1 x.2) q) = l + elements q ∧
      (Heap q → Heap (l.foldl (fun acc x => insert acc x.1 x.2) q)) := by
  induction l generalizing q with
  | nil => exact ⟨(zero_add _).symm, id⟩
  | cons x l ih =>
    obtain ⟨helements, hheap⟩ := ih (insert q x.1 x.2)
    refine ⟨?_, fun hq => hheap (heap_insert hq _ _)⟩
    rw [List.foldl_cons, helements, elements_insert, Multiset.add_cons, ← Multiset.cons_coe, Multiset.cons_add]

theorem elements_merge (queue1 queue2 : Queue α) : elements (merge queue1 queue2) = elements queue1 + elements queue2 := by
  rw [merge, fold_eq, (foldl_insert _ _).1, coe_order]

theorem heap_merge {queue2 : Queue α} (queue1 : Queue α) (h : Heap queue2) : Heap (merge queue1 queue2) := by
  rw [merge, fold_eq]
  exact (foldl_insert _ _).2 h

/-! ## Runs -/

/-- A queue that the operations lead to. -/
inductive Reachable : Queue α → Prop
  | empty : Reachable empty
  | insert {q : Queue α} (h : Reachable q) (prio : Int) (elt : α) : Reachable (insert q prio elt)
  | merge {queue1 queue2 : Queue α} (h1 : Reachable queue1) (h2 : Reachable queue2) : Reachable (merge queue1 queue2)
  | extract {q q' : Queue α} {prio : Int} {elt : α} (h : Reachable q) (hq : extract q = some (prio, elt, q')) : Reachable q'

theorem Reachable.heap {q : Queue α} (h : Reachable q) : Heap q := by
  induction h with
  | empty => trivial
  | insert _ prio elt ih => exact heap_insert ih prio elt
  | merge _ _ _ ih => exact heap_merge _ ih
  | extract _ hq ih => exact ((extract_spec hq).2 ih).1

/-- What `n` extractions yield, and what is left. -/
def extracts : Nat → Queue α → Option (List (Int × α) × Queue α)
  | 0, q => some ([], q)
  | n + 1, q => do
    let (prio, elt, q) ← extract q
    let (l, q) ← extracts n q
    some ((prio, elt) :: l, q)

/-- A heap is emptied in the order of the priorities, and then there is nothing more to extract. -/
theorem extracts_spec {q : Queue α} (h : Heap q) :
    ∃ l, extracts (Multiset.card (elements q)) q = some (l, empty) ∧ (l : Multiset (Int × α)) = elements q ∧
      l.Pairwise fun x y => x.1 ≤ y.1 := by
  generalize hn : Multiset.card (elements q) = n
  induction n generalizing q with
  | zero =>
    cases q with
    | empty => exact ⟨[], rfl, rfl, .nil⟩
    | node prio elt left right =>
      rw [elements_node, Multiset.card_cons] at hn
      cases hn
  | succ n ih =>
    cases hextract : extract q with
    | none =>
      rw [extract_eq_none.1 hextract] at hn
      cases hn
    | some r =>
      obtain ⟨prio, elt, q'⟩ := r
      obtain ⟨helements, hheap⟩ := extract_spec hextract
      obtain ⟨hq', hmin⟩ := hheap h
      rw [helements, Multiset.card_cons] at hn
      obtain ⟨l, hl, hcoe, hsorted⟩ := ih hq' (Nat.succ.inj hn)
      refine ⟨(prio, elt) :: l, ?_, ?_, List.pairwise_cons.2 ⟨fun x hx => hmin x ?_, hsorted⟩⟩
      · simp only [extracts, hextract, hl, Option.bind_eq_bind, Option.bind_some]
      · rw [helements, ← hcoe, Multiset.cons_coe]
      · rw [helements, ← hcoe]
        exact Multiset.mem_cons_of_mem (Multiset.mem_coe.2 hx)

/-- Every queue is heap ordered, merging unites what is in the queues, and any elements that are inserted come out again in
the order of their priorities. -/
theorem queue_spec : (∀ q : Queue α, Reachable q → Heap q) ∧
    (∀ q : Queue α, Reachable q → ∃ l, extracts (Multiset.card (elements q)) q = some (l, empty) ∧
      (l : Multiset (Int × α)) = elements q ∧ l.Pairwise fun x y => x.1 ≤ y.1) ∧
    (∀ (q : Queue α) (prio : Int) (elt : α), elements (insert q prio elt) = (prio, elt) ::ₘ elements q) ∧
    (∀ (q q' : Queue α) (prio : Int) (elt : α), extract q = some (prio, elt, q') → elements q = (prio, elt) ::ₘ elements q') ∧
    ∀ queue1 queue2 : Queue α, elements (merge queue1 queue2) = elements queue1 + elements queue2 :=
  ⟨fun _ h => h.heap, fun _ h => extracts_spec h.heap, elements_insert, fun _ _ _ _ h => (extract_spec h).1, elements_merge⟩

theorem queue_spec_two : Reachable (insert (insert empty 2 'a') 1 'b') ∧
    ∃ l, extracts (Multiset.card (elements (insert (insert empty 2 'a') 1 'b'))) (insert (insert empty 2 'a') 1 'b') = some (l, empty) ∧
      (l : Multiset (Int × Char)) = elements (insert (insert empty 2 'a') 1 'b') ∧ l.Pairwise fun x y => x.1 ≤ y.1 :=
  ⟨(Reachable.empty.insert 2 'a').insert 1 'b', queue_spec.2.1 _ ((Reachable.empty.insert 2 'a').insert 1 'b')⟩

end EvilHaxe.Ds.PriorityQueue
