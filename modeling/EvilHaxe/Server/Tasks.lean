/-
The tasks of the compilation server: `add_task`, `get_task` and `run_tasks` of `cache`.
-/
import EvilHaxe.Ds.PriorityQueue
import Mathlib.Tactic.Abel

namespace EvilHaxe.Server

open Ds.PriorityQueue

section

variable {σ Task : Type}

/-- The queue of the cache and all else that tasks change, with a trace: what was enqueued. -/
structure Tasks (σ Task : Type) where
  world : σ
  tasks : Queue Task
  enqueued : Multiset (Int × Task)

/-- What is known of a task: `get_priority`, and what `run` does to the world and which tasks it enqueues. -/
structure ServerTask (σ Task : Type) where
  priority : Task → Int
  run : Task → σ → σ × List Task

variable (t : ServerTask σ Task)

def addTask (s : Tasks σ Task) (task : Task) : Tasks σ Task :=
  { s with tasks := insert s.tasks (t.priority task) task, enqueued := (t.priority task, task) ::ₘ s.enqueued }

def getTask (s : Tasks σ Task) : Option (Task × Tasks σ Task) :=
  (extract s.tasks).map fun r => (r.2.1, { s with tasks := r.2.2 })

def runTask (s : Tasks σ Task) (task : Task) : Tasks σ Task :=
  let r := t.run task s.world
  r.2.foldl (addTask t) { s with world := r.1 }

/-- What a fold of `run_tasks` works on: the pair `(ran_task, acc)`, the cache, and as a trace the tasks that ran. -/
structure Folding (σ Task : Type) where
  ranTask : Bool
  acc : Queue Task
  cache : Tasks σ Task
  ran : List (Int × Task)

/-- The local function `f` of `run_tasks`. -/
def visit (f : Task → Bool) (r : Folding σ Task) (prio : Int) (task : Task) : Folding σ Task :=
  if f task then { r with ranTask := true, cache := runTask t r.cache task, ran := r.ran ++ [(prio, task)] }
  else { r with acc := insert r.acc prio task }

/-- A round of `loop`: the tasks that are there at its start are visited. -/
def round (f : Task → Bool) (s : Tasks σ Task) (acc : Queue Task) : Folding σ Task :=
  fold (visit t f) s.tasks { ranTask := false, acc := acc, cache := { s with tasks := .empty }, ran := [] }

/-- The queue at the start of a round, and the tasks that ran in it. -/
structure Round (Task : Type) where
  current : Queue Task
  ran : List (Int × Task)

def loop (recursive : Bool) (f : Task → Bool) : Nat → Tasks σ Task → Queue Task → Option (Tasks σ Task × Queue Task × List (Round Task))
  | 0, _, _ => none
  | fuel + 1, s, acc =>
    let r := round t f s acc
    if recursive && r.ranTask then
      (loop recursive f fuel r.cache r.acc).map fun (s', folded, rounds) => (s', folded, ⟨s.tasks, r.ran⟩ :: rounds)
    else some (r.cache, r.acc, [⟨s.tasks, r.ran⟩])

/-- The arguments of `merge` are evaluated from right to left. -/
def runTasks (recursive : Bool) (f : Task → Bool) (fuel : Nat) (s : Tasks σ Task) : Option (Tasks σ Task × List (Round Task)) :=
  (loop t recursive f fuel s .empty).map fun (s, folded, rounds) => ({ s with tasks := merge s.tasks folded }, rounds)

end

/-! ## A round -/

section

variable {σ Task : Type} {t : ServerTask σ Task} {f : Task → Bool}

/-- Whether the filter accepts what is in the queue. -/
abbrev Accepted (f : Task → Bool) (x : Int × Task) : Prop := f x.2 = true

/-- Enqueuing keeps the heap, and the books. -/
structure Enqueues (s s' : Tasks σ Task) : Prop where
  heap : Heap s.tasks → Heap s'.tasks
  books : elements s'.tasks + s.enqueued = elements s.tasks + s'.enqueued

theorem Enqueues.refl (s : Tasks σ Task) : Enqueues s s := ⟨id, rfl⟩

theorem Enqueues.trans {s s' s'' : Tasks σ Task} (h : Enqueues s s') (h' : Enqueues s' s'') : Enqueues s s'' where
  heap hs := h'.heap (h.heap hs)
  books := by
    have h1 := h.books
    have h2 := h'.books
    refine add_right_cancel (b := s'.enqueued + elements s'.tasks) ?_
    calc elements s''.tasks + s.enqueued + (s'.enqueued + elements s'.tasks)
        = (elements s'.tasks + s.enqueued) + (elements s''.tasks + s'.enqueued) := by abel
      _ = (elements s.tasks + s'.enqueued) + (elements s'.tasks + s''.enqueued) := by rw [h1, h2]
      _ = elements s.tasks + s''.enqueued + (s'.enqueued + elements s'.tasks) := by abel

theorem enqueues_addTask (s : Tasks σ Task) (task : Task) : Enqueues s (addTask t s task) where
  heap h := heap_insert h _ _
  books := by
    rw [addTask, elements_insert, Multiset.cons_add, Multiset.add_cons]

theorem enqueues_runTask (s : Tasks σ Task) (task : Task) : Enqueues s (runTask t s task) := by
  have hadd : ∀ (l : List Task) (s : Tasks σ Task), Enqueues s (l.foldl (addTask t) s) := by
    intro l
    induction l with
    | nil => exact Enqueues.refl
    | cons task l ih => exact fun s => (enqueues_addTask s task).trans (ih _)
  exact (⟨id, rfl⟩ : Enqueues s { s with world := (t.run task s.world).1 }).trans (hadd _ _)

/-- What a fold over the tasks `l` makes of `r`: those that are accepted have run in their order, the others are put aside. -/
theorem foldl_visit (l : List (Int × Task)) (r : Folding σ Task) :
    let r' := l.foldl (fun r x => visit t f r x.1 x.2) r
    r'.ran = r.ran ++ l.filter (Accepted f) ∧ r'.ranTask = (r.ranTask || (l.filter (Accepted f)).any fun _ => true) ∧
      elements r'.acc = elements r.acc + (l.filter fun x => ¬ Accepted f x : List (Int × Task)) ∧
      Enqueues r.cache r'.cache ∧ (l.filter (Accepted f) = [] → r'.cache = r.cache) := by
  induction l generalizing r with
  | nil => simp [Enqueues.refl]
  | cons x l ih =>
    obtain ⟨hran, htask, hacc, hcache, hsame⟩ := ih (visit t f r x.1 x.2)
    simp only [List.foldl_cons]
    by_cases hx : f x.2 = true
    · rw [List.filter_cons_of_pos (by simpa using hx), List.filter_cons_of_neg (by simpa using hx)]
      rw [visit, if_pos hx] at hran htask hacc hcache hsame ⊢
      refine ⟨?_, ?_, hacc, (enqueues_runTask _ _).trans hcache, nofun⟩
      · rw [hran, List.append_assoc, List.singleton_append]
      · rw [htask]
        simp
    · rw [List.filter_cons_of_neg (by simpa using hx), List.filter_cons_of_pos (by simpa using hx)]
      rw [visit, if_neg hx] at hran htask hacc hcache hsame ⊢
      refine ⟨hran, htask, ?_, hcache, hsame⟩
      rw [hacc, elements_insert, ← Multiset.cons_coe, Multiset.cons_add, Multiset.add_cons]

theorem round_spec (s : Tasks σ Task) (acc : Queue Task) :
    (round t f s acc).ran = (order s.tasks).filter (Accepted f) ∧
      ((round t f s acc).ranTask = true ↔ (round t f s acc).ran ≠ []) ∧
      elements (round t f s acc).acc = elements acc + (elements s.tasks).filter (fun x => ¬ Accepted f x) ∧
      Heap (round t f s acc).cache.tasks ∧
      elements (round t f s acc).cache.tasks + s.enqueued = (round t f s acc).cache.enqueued ∧
      ((round t f s acc).ran = [] → (round t f s acc).cache.tasks = .empty) := by
  obtain ⟨hran, htask, hacc, hcache, hsame⟩ := @foldl_visit _ _ t f (order s.tasks)
    { ranTask := false, acc := acc, cache := { s with tasks := .empty }, ran := [] }
  rw [← fold_eq] at hran htask hacc hcache hsame
  rw [List.nil_append] at hran
  refine ⟨hran, ?_, ?_, hcache.heap trivial, ?_, fun h => ?_⟩
  · rw [round, htask, hran]
    cases (order s.tasks).filter (Accepted f) <;> simp
  · rw [round, hacc, ← coe_order s.tasks, Multiset.filter_coe]
  · exact hcache.books.trans (zero_add _)
  · rw [round, hsame (hran.symm.trans h)]

/-- The tasks that a round has, and those that are accepted of them. -/
def Round.Ran (f : Task → Bool) (r : Round Task) : Prop :=
  Heap r.current ∧ r.ran = (order r.current).filter (Accepted f)

/-- What a loop does: each round runs what is accepted of its queue, and what is not comes to what was put aside. Where a
task has run, a recursive loop goes on with what was enqueued. -/
theorem loop_spec {recursive : Bool} {fuel : Nat} {s s' : Tasks σ Task} {acc folded : Queue Task} {rounds : List (Round Task)}
    (hs : Heap s.tasks) (h : loop t recursive f fuel s acc = some (s', folded, rounds)) :
    rounds.head?.map Round.current = some s.tasks ∧ (∀ r ∈ rounds, r.Ran f) ∧ Heap s'.tasks ∧
      elements folded = elements acc + (rounds.map fun r => (elements r.current).filter fun x => ¬ Accepted f x).sum ∧
      (rounds.map fun r => elements r.current).sum + elements s'.tasks + s.enqueued = elements s.tasks + s'.enqueued ∧
      (recursive = true → s'.tasks = .empty) ∧ (recursive = false → rounds.length = 1) := by
  induction fuel generalizing s acc s' folded rounds with
  | zero => cases h
  | succ fuel ih =>
    obtain ⟨hran, htask, hacc, hheap, hbooks, hnone⟩ := @round_spec _ _ t f s acc
    rw [loop] at h
    have hfirst : Round.Ran f ⟨s.tasks, (round t f s acc).ran⟩ := ⟨hs, hran⟩
    dsimp only at h
    split at h
    next hagain =>
      obtain ⟨hrec, htrue⟩ := Bool.and_eq_true_iff.1 hagain
      obtain ⟨⟨s1, folded1, rounds1⟩, hloop, heq⟩ := Option.map_eq_some_iff.1 h
      simp only [Prod.mk.injEq] at heq
      obtain ⟨rfl, rfl, rfl⟩ := heq
      obtain ⟨-, hrounds, hheap', hfolded, hbooks', hempty, -⟩ := ih hheap hloop
      refine ⟨rfl, List.forall_mem_cons.2 ⟨hfirst, hrounds⟩, hheap', ?_, ?_, hempty, fun hnot => ?_⟩
      · rw [hfolded, hacc, List.map_cons, List.sum_cons, add_assoc]
      · rw [List.map_cons, List.sum_cons]
        refine add_right_cancel (b := (round t f s acc).cache.enqueued) ?_
        calc elements s.tasks + (rounds1.map fun r => elements r.current).sum + elements s1.tasks + s.enqueued +
              (round t f s acc).cache.enqueued
            = elements s.tasks + s.enqueued + ((rounds1.map fun r => elements r.current).sum + elements s1.tasks +
              (round t f s acc).cache.enqueued) := by abel
          _ = elements s.tasks + s.enqueued + (elements (round t f s acc).cache.tasks + s1.enqueued) := by rw [hbooks']
          _ = elements s.tasks + s1.enqueued + (elements (round t f s acc).cache.tasks + s.enqueued) := by abel
          _ = elements s.tasks + s1.enqueued + (round t f s acc).cache.enqueued := by rw [hbooks]
      · rw [hrec] at hnot
        cases hnot
    next hagain =>
      simp only [Option.some.injEq, Prod.mk.injEq] at h
      obtain ⟨rfl, rfl, rfl⟩ := h
      refine ⟨rfl, ?_, hheap, ?_, ?_, fun hrec => hnone ?_, fun _ => rfl⟩
      · rintro r hr
        rwa [List.mem_singleton.1 hr]
      · rw [hacc, List.map_singleton, List.sum_singleton]
      · rw [List.map_singleton, List.sum_singleton, add_assoc, hbooks]
      · by_contra hne
        exact hagain (Bool.and_eq_true_iff.2 ⟨hrec, htask.2 hne⟩)

/-! ## The order within a round -/

/-- Of the tasks that are accepted, those under the child that is visited first come before those under the other one. -/
def Level (f : Task → Bool) : Queue Task → Prop
  | .empty => True
  | .node _ _ .empty right => Level f right
  | .node _ _ left .empty => Level f left
  | .node _ _ (.node lprio lelt l1 l2) (.node rprio relt r1 r2) =>
    Level f (.node lprio lelt l1 l2) ∧ Level f (.node rprio relt r1 r2) ∧
      ∀ x ∈ elements (.node lprio lelt l1 l2), ∀ y ∈ elements (.node rprio relt r1 r2), Accepted f x → Accepted f y →
        if lprio ≤ rprio then x.1 ≤ y.1 else y.1 ≤ x.1

theorem mem_order {q : Queue Task} {x : Int × Task} : x ∈ order q ↔ x ∈ elements q := by
  rw [← coe_order, Multiset.mem_coe]

theorem sorted_append {l l' : List (Int × Task)} : ((l ++ l').filter (Accepted f)).Pairwise (fun x y => x.1 ≤ y.1) ↔
    (l.filter (Accepted f)).Pairwise (fun x y => x.1 ≤ y.1) ∧ (l'.filter (Accepted f)).Pairwise (fun x y => x.1 ≤ y.1) ∧
      ∀ x ∈ l, ∀ y ∈ l', Accepted f x → Accepted f y → x.1 ≤ y.1 := by
  rw [List.filter_append, List.pairwise_append]
  simp only [List.mem_filter, decide_eq_true_eq, and_imp]
  constructor
  · rintro ⟨h1, h2, h3⟩
    exact ⟨h1, h2, fun x hx y hy hfx hfy => h3 x hx hfx y hy hfy⟩
  · rintro ⟨h1, h2, h3⟩
    exact ⟨h1, h2, fun x hx hfx y hy hfy => h3 x hx y hy hfx hfy⟩

/-- The root comes first in any case. -/
theorem sorted_cons {x : Int × Task} {l : List (Int × Task)} (h : ∀ y ∈ l, x.1 ≤ y.1) :
    ((x :: l).filter (Accepted f)).Pairwise (fun x y => x.1 ≤ y.1) ↔ (l.filter (Accepted f)).Pairwise fun x y => x.1 ≤ y.1 := by
  by_cases hx : f x.2 = true
  · rw [List.filter_cons_of_pos (by simpa using hx), List.pairwise_cons]
    exact ⟨And.right, fun hl => ⟨fun y hy => h y (List.mem_of_mem_filter hy), hl⟩⟩
  · rw [List.filter_cons_of_neg (by simpa using hx)]

theorem sorted_order_iff {q : Queue Task} (h : Heap q) :
    ((order q).filter (Accepted f)).Pairwise (fun x y => x.1 ≤ y.1) ↔ Level f q := by
  induction q with
  | empty => simp [order, Level]
  | node prio elt left right ihl ihr =>
    obtain ⟨hroot, hl, hr⟩ := h
    cases left with
    | empty =>
      rw [Level, ← ihr hr]
      cases right with
      | empty => exact sorted_cons fun y hy => by cases hy
      | node rprio relt r1 r2 =>
        rw [order]
        · exact sorted_cons fun y hy => hroot y (Multiset.mem_add.2 (.inr (mem_order.1 hy)))
        · rintro ⟨⟩
    | node lprio lelt l1 l2 =>
      cases right with
      | empty =>
        rw [Level, ← ihl hl, order]
        · exact sorted_cons fun y hy => hroot y (Multiset.mem_add.2 (.inl (mem_order.1 hy)))
        · rintro ⟨⟩
      | node rprio relt r1 r2 =>
        rw [Level, ← ihl hl, ← ihr hr, order]
        split
        next hle =>
          rw [sorted_cons, sorted_append]
          · simp only [mem_order]
          · intro y hy
            rw [List.mem_append, mem_order, mem_order] at hy
            exact hroot y (Multiset.mem_add.2 hy)
        next hlt =>
          rw [sorted_cons, sorted_append]
          · simp only [mem_order]
            constructor
            · rintro ⟨h1, h2, h3⟩
              exact ⟨h2, h1, fun x hx y hy hfx hfy => h3 y hy x hx hfy hfx⟩
            · rintro ⟨h1, h2, h3⟩
              exact ⟨h2, h1, fun x hx y hy hfx hfy => h3 y hy x hx hfy hfx⟩
          · intro y hy
            rw [List.mem_append, mem_order, mem_order, or_comm] at hy
            exact hroot y (Multiset.mem_add.2 hy)

/-! ## `run_tasks` -/

/-- Each accepted task of the queue has run once, and if the call is recursive each that was enqueued meanwhile; the queue
holds the tasks that have not run; and within a round the tasks run in the order of their priorities. -/
structure RunsAll (recursive : Bool) (f : Task → Bool) (s s' : Tasks σ Task) (rounds : List (Round Task)) : Prop where
  ran : ((rounds.flatMap Round.ran : List (Int × Task)) : Multiset (Int × Task)) =
    (elements s.tasks + if recursive then s'.enqueued else 0).filter (Accepted f)
  left : elements s'.tasks + ((rounds.flatMap Round.ran : List (Int × Task)) : Multiset (Int × Task)) =
    elements s.tasks + s'.enqueued
  order : ∀ r ∈ rounds, r.ran.Pairwise fun x y => x.1 ≤ y.1

theorem coe_flatMap_ran {rounds : List (Round Task)} (h : ∀ r ∈ rounds, r.Ran f) :
    ((rounds.flatMap Round.ran : List (Int × Task)) : Multiset (Int × Task)) =
      (rounds.map fun r => elements r.current).sum.filter (Accepted f) := by
  induction rounds with
  | nil => rfl
  | cons r rounds ih =>
    obtain ⟨hr, hrounds⟩ := List.forall_mem_cons.1 h
    rw [List.flatMap_cons, ← Multiset.coe_add, ih hrounds, List.map_cons, List.sum_cons, Multiset.filter_add, hr.2,
      ← coe_order r.current, Multiset.filter_coe]

theorem sum_filter_not (rounds : List (Round Task)) :
    (rounds.map fun r => (elements r.current).filter fun x => ¬ Accepted f x).sum =
      (rounds.map fun r => elements r.current).sum.filter fun x => ¬ Accepted f x := by
  induction rounds with
  | nil => rfl
  | cons r rounds ih => rw [List.map_cons, List.sum_cons, ih, List.map_cons, List.sum_cons, Multiset.filter_add]

/-- No task is lost and none runs twice. The order is that of the priorities exactly where the queues of the rounds have the
accepted tasks under the child that is visited first before those under the other one. -/
theorem runTasks_iff {recursive : Bool} {fuel : Nat} {s s' : Tasks σ Task} {rounds : List (Round Task)}
    (hs : Reachable s.tasks) (hstart : s.enqueued = 0) (h : runTasks t recursive f fuel s = some (s', rounds)) :
    RunsAll recursive f s s' rounds ↔ ∀ r ∈ rounds, Level f r.current := by
  obtain ⟨⟨s1, folded, rounds1⟩, hloop, heq⟩ := Option.map_eq_some_iff.1 h
  simp only [Prod.mk.injEq] at heq
  obtain ⟨rfl, rfl⟩ := heq
  obtain ⟨hfirst, hrounds, -, hfolded, hbooks, hempty, hone⟩ := loop_spec hs.heap hloop
  rw [hstart, add_zero] at hbooks
  rw [elements_empty, zero_add, sum_filter_not] at hfolded
  have hran := coe_flatMap_ran hrounds
  constructor
  · rintro ⟨-, -, horder⟩ r hr
    rw [← sorted_order_iff (hrounds r hr).1, ← (hrounds r hr).2]
    exact horder r hr
  · intro hlevel
    refine ⟨?_, ?_, fun r hr => ?_⟩
    · rw [hran]
      cases recursive with
      | true =>
        have hnone : s1.tasks = .empty := hempty rfl
        rw [hnone, elements_empty, add_zero] at hbooks
        rw [hbooks, if_pos rfl]
      | false =>
        obtain ⟨r, rfl⟩ := List.length_eq_one_iff.1 (hone rfl)
        have hcurrent : r.current = s.tasks := Option.some.inj hfirst
        rw [List.map_singleton, List.sum_singleton, hcurrent, if_neg Bool.false_ne_true, add_zero]
    · rw [elements_merge, hfolded, hran, ← hbooks, add_assoc, add_comm (Multiset.filter _ _), Multiset.filter_add_not, add_comm]
    · rw [(hrounds r hr).2]
      exact (sorted_order_iff (hrounds r hr).1).2 (hlevel r hr)

end

/-- Tasks that are numbers, whose priority they are, and that do nothing. -/
def numbers : ServerTask Unit Nat where
  priority n := n
  run _ world := (world, [])

/-- The cache when the tasks `l` have been added. -/
def added (l : List Nat) : Tasks Unit Nat := { l.foldl (addTask numbers) ⟨(), .empty, 0⟩ with enqueued := 0 }

theorem reachable_added (l : List Nat) : Reachable (added l).tasks := by
  have hadd : ∀ (l : List Nat) (s : Tasks Unit Nat), Reachable s.tasks → Reachable (l.foldl (addTask numbers) s).tasks := by
    intro l
    induction l with
    | nil => exact fun s hs => hs
    | cons n l ih => exact fun s hs => ih _ (hs.insert _ _)
  exact hadd l _ .empty

theorem runTasks_iff_two : ∃ s' rounds, Reachable (added [1, 2]).tasks ∧ (added [1, 2]).enqueued = 0 ∧
    runTasks numbers true (fun _ => true) 2 (added [1, 2]) = some (s', rounds) ∧
      (RunsAll true (fun _ => true) (added [1, 2]) s' rounds ↔ ∀ r ∈ rounds, Level (fun _ => true) r.current) :=
  ⟨_, _, reachable_added [1, 2], rfl, rfl, @runTasks_iff _ _ numbers (fun _ => true) true 2 _ _ _ (reachable_added [1, 2]) rfl rfl⟩

/-- Of four tasks that are added in the order of their priorities the fourth runs before the third. -/
theorem runTasks_out_of_order : ¬ ∀ s' rounds, runTasks numbers false (fun _ => true) 1 (added [1, 2, 3, 4]) = some (s', rounds) →
    RunsAll false (fun _ => true) (added [1, 2, 3, 4]) s' rounds := by
  intro h
  have hsome : ∃ s' rounds, runTasks numbers false (fun _ => true) 1 (added [1, 2, 3, 4]) = some (s', rounds) ∧
      ¬ ∀ r ∈ rounds, r.ran.Pairwise fun x y => x.1 ≤ y.1 := ⟨_, _, rfl, by decide⟩
  obtain ⟨s', rounds, hrun, hnot⟩ := hsome
  exact hnot (h s' rounds hrun).order

end EvilHaxe.Server
