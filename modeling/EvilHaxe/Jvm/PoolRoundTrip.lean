/-
The indices of the constant pool. The abstract pool is the list of its constants: the first stands at 1, and each next
one as far behind as the constant before it is wide. The tables of the pool agree with that list after any calls of
`add`.
-/
import EvilHaxe.Jvm.ClassFile
import EvilHaxe.Jvm.PoolBytes

namespace EvilHaxe.Jvm

variable {A B : Type}

/-! ## The abstract pool -/

/-- The constants of `l` with their indices, from `i` on. -/
def indexed : Nat → List (JvmConstant A B) → List (Nat × JvmConstant A B)
  | _, [] => []
  | i, c :: l => (i, c) :: indexed (i + width c) l

def slots (l : List (JvmConstant A B)) : Nat := (l.map width).sum

def insertNew [DecidableEq A] [DecidableEq B] (l : List (JvmConstant A B)) (c : JvmConstant A B) :
    List (JvmConstant A B) :=
  if c ∈ l then l else l ++ [c]

/-- The constants of a sequence of calls, each where it comes first. -/
def distinct [DecidableEq A] [DecidableEq B] (cs : List (JvmConstant A B)) : List (JvmConstant A B) :=
  cs.foldl insertNew []

theorem width_pos (c : JvmConstant A B) : 0 < width c := by
  cases c <;> simp [width]

@[simp]
theorem slots_cons (c : JvmConstant A B) (l : List (JvmConstant A B)) : slots (c :: l) = width c + slots l := by
  simp [slots]

@[simp]
theorem slots_append (l r : List (JvmConstant A B)) : slots (l ++ r) = slots l + slots r := by
  simp [slots]

theorem indexed_append (i : Nat) (l : List (JvmConstant A B)) (c : JvmConstant A B) :
    indexed i (l ++ [c]) = indexed i l ++ [(i + slots l, c)] := by
  induction l generalizing i with
  | nil => rfl
  | cons d l ih =>
    rw [List.cons_append, indexed, ih, slots_cons, Nat.add_assoc]
    rfl

theorem mem_of_indexed {i j : Nat} {c : JvmConstant A B} {l : List (JvmConstant A B)} (h : (j, c) ∈ indexed i l) :
    c ∈ l := by
  induction l generalizing i with
  | nil => cases h
  | cons d l ih =>
    rcases List.mem_cons.mp h with h | h
    · cases h
      exact List.mem_cons_self
    · exact List.mem_cons_of_mem _ (ih h)

theorem indexed_of_mem {c : JvmConstant A B} {l : List (JvmConstant A B)} (h : c ∈ l) (i : Nat) :
    ∃ j, (j, c) ∈ indexed i l := by
  induction l generalizing i with
  | nil => cases h
  | cons d l ih =>
    rcases List.mem_cons.mp h with rfl | h
    · exact ⟨i, List.mem_cons_self⟩
    · obtain ⟨j, hj⟩ := ih h (i + width d)
      exact ⟨j, List.mem_cons_of_mem _ hj⟩

theorem indexed_range {i j : Nat} {c : JvmConstant A B} {l : List (JvmConstant A B)} (h : (j, c) ∈ indexed i l) :
    i ≤ j ∧ j + width c ≤ i + slots l := by
  induction l generalizing i with
  | nil => cases h
  | cons d l ih =>
    rw [slots_cons]
    rcases List.mem_cons.mp h with h | h
    · cases h
      omega
    · have := ih h
      omega

theorem indexed_ascending (i : Nat) (l : List (JvmConstant A B)) :
    (indexed i l).Pairwise fun a b => a.1 < b.1 := by
  induction l generalizing i with
  | nil => exact .nil
  | cons c l ih =>
    refine .cons ?_ (ih (i + width c))
    rintro ⟨j, d⟩ hd
    have h1 := indexed_range hd
    have h2 := width_pos c
    show i < j
    omega

/-- Behind a constant stands the next one, or the first free index. -/
theorem indexed_next {i j : Nat} {c : JvmConstant A B} {l : List (JvmConstant A B)} (h : (j, c) ∈ indexed i l) :
    j + width c = i + slots l ∨ ∃ d, (j + width c, d) ∈ indexed i l := by
  induction l generalizing i with
  | nil => cases h
  | cons e l ih =>
    rcases List.mem_cons.mp h with h | h
    · cases h
      cases l with
      | nil => exact .inl (by simp [slots])
      | cons d l => exact .inr ⟨d, List.mem_cons_of_mem _ List.mem_cons_self⟩
    · rcases ih h with h | ⟨d, hd⟩
      · refine .inl ?_
        rw [slots_cons]
        omega
      · exact .inr ⟨d, List.mem_cons_of_mem _ hd⟩

/-- Two places of the table are one, or one constant stands behind the other. -/
theorem indexed_disjoint {i j k : Nat} {c d : JvmConstant A B} {l : List (JvmConstant A B)} (hl : l.Nodup)
    (hc : (j, c) ∈ indexed i l) (hd : (k, d) ∈ indexed i l) :
    (j = k ∧ c = d) ∨ (c ≠ d ∧ (j + width c ≤ k ∨ k + width d ≤ j)) := by
  induction l generalizing i with
  | nil => cases hc
  | cons e l ih =>
    obtain ⟨hnot, hl⟩ := List.nodup_cons.mp hl
    rcases List.mem_cons.mp hc with h1 | h1 <;> rcases List.mem_cons.mp hd with h2 | h2
    · cases h1
      cases h2
      exact .inl ⟨rfl, rfl⟩
    · cases h1
      have := indexed_range h2
      exact .inr ⟨fun h => hnot (h ▸ mem_of_indexed h2), .inl (by omega)⟩
    · cases h2
      have := indexed_range h1
      exact .inr ⟨fun h => hnot (h ▸ mem_of_indexed h1), .inr (by omega)⟩
    · exact ih hl h1 h2

variable [DecidableEq A] [DecidableEq B]

theorem insertNew_nodup {l : List (JvmConstant A B)} (hl : l.Nodup) (c : JvmConstant A B) : (insertNew l c).Nodup := by
  unfold insertNew
  split
  · exact hl
  · rename_i h
    rw [← List.concat_eq_append]
    exact hl.concat h

theorem foldl_nodup {l : List (JvmConstant A B)} (hl : l.Nodup) (cs : List (JvmConstant A B)) :
    (cs.foldl insertNew l).Nodup := by
  induction cs generalizing l with
  | nil => exact hl
  | cons c cs ih => exact ih (insertNew_nodup hl c)

theorem mem_insertNew {l : List (JvmConstant A B)} {c d : JvmConstant A B} : d ∈ insertNew l c ↔ d ∈ l ∨ d = c := by
  unfold insertNew
  split
  · rename_i h
    constructor
    · exact .inl
    · rintro (h' | rfl)
      · exact h'
      · exact h
  · rw [List.mem_append, List.mem_singleton]

theorem mem_foldl {l cs : List (JvmConstant A B)} {d : JvmConstant A B} :
    d ∈ cs.foldl insertNew l ↔ d ∈ l ∨ d ∈ cs := by
  induction cs generalizing l with
  | nil => simp
  | cons c cs ih => rw [List.foldl_cons, ih, mem_insertNew, List.mem_cons, or_assoc]

theorem mem_distinct {cs : List (JvmConstant A B)} {d : JvmConstant A B} : d ∈ distinct cs ↔ d ∈ cs := by
  rw [distinct, mem_foldl]
  simp

theorem distinct_nodup (cs : List (JvmConstant A B)) : (distinct cs).Nodup := foldl_nodup List.nodup_nil cs

theorem indexed_insertNew {l : List (JvmConstant A B)} {i j : Nat} {c d : JvmConstant A B}
    (h : (j, d) ∈ indexed i l) : (j, d) ∈ indexed i (insertNew l c) := by
  unfold insertNew
  split
  · exact h
  · rw [indexed_append]
    exact List.mem_append_left _ h

/-- No later call moves a constant. -/
theorem indexed_foldl {l : List (JvmConstant A B)} {i j : Nat} {d : JvmConstant A B} (h : (j, d) ∈ indexed i l)
    (cs : List (JvmConstant A B)) : (j, d) ∈ indexed i (cs.foldl insertNew l) := by
  induction cs generalizing l with
  | nil => exact h
  | cons c cs ih => exact ih (indexed_insertNew h)

/-! ## The tables -/

namespace ConstantPool

/-- The tables of an open pool agree. -/
structure WF (p : ConstantPool A B) : Prop where
  nodup : p.pool.Nodup
  lut : ∀ c i, p.lut.lookup c = some i ↔ (i, c) ∈ indexed 1 p.pool
  get : ∀ i c, p.get i = some c ↔ (i, c) ∈ indexed 1 p.pool
  luti : ∀ i k, p.luti.lookup i = some k → k < p.pool.length
  nextIndex : p.nextIndex = 1 + slots p.pool
  isOpen : p.closed = false

omit [DecidableEq A] [DecidableEq B] in
theorem lookup_cons_iff {α β : Type} [BEq α] [LawfulBEq α] {a x : α} {b y : β} {l : List (α × β)} :
    ((a, b) :: l).lookup x = some y ↔ (x = a ∧ b = y) ∨ (x ≠ a ∧ l.lookup x = some y) := by
  rw [List.lookup_cons]
  by_cases h : x = a
  · subst h
    simp
  · have hne : (x == a) = false := beq_eq_false_iff_ne.mpr h
    simp [hne, h]

theorem create_wf : (create : ConstantPool A B).WF where
  nodup := List.nodup_nil
  lut c i := by simp [create, indexed]
  get i c := by simp [create, indexed, ConstantPool.get]
  luti i k := by simp [create]
  nextIndex := rfl
  isOpen := rfl

/-- The pool with `c` behind its constants. -/
def append (p : ConstantPool A B) (c : JvmConstant A B) : ConstantPool A B :=
  { p with
    nextIndex := p.nextIndex + width c
    pool := p.pool ++ [c]
    lut := (c, p.nextIndex) :: p.lut
    luti := (p.nextIndex, p.pool.length) :: p.luti }

theorem append_wf {p : ConstantPool A B} (h : p.WF) {c : JvmConstant A B} (hc : c ∉ p.pool) : (p.append c).WF := by
  have hrange : ∀ {j d}, (j, d) ∈ indexed 1 p.pool → j < p.nextIndex := by
    intro j d hd
    have h1 := indexed_range hd
    have h2 := width_pos d
    have h3 := h.nextIndex
    omega
  have hmem : ∀ j d, (j, d) ∈ indexed 1 (p.append c).pool ↔
      (j, d) ∈ indexed 1 p.pool ∨ (j = p.nextIndex ∧ d = c) := by
    intro j d
    show (j, d) ∈ indexed 1 (p.pool ++ [c]) ↔ _
    rw [indexed_append, List.mem_append, List.mem_singleton, Prod.mk.injEq, h.nextIndex]
  constructor
  case nodup => exact List.nodup_append.mpr ⟨h.nodup, List.nodup_singleton c, by simp; rintro d hd rfl; exact hc hd⟩
  case lut =>
    intro d i
    rw [hmem]
    show ((c, p.nextIndex) :: p.lut).lookup d = some i ↔ _
    rw [lookup_cons_iff, h.lut]
    constructor
    · rintro (⟨rfl, rfl⟩ | ⟨-, hd⟩)
      · exact .inr ⟨rfl, rfl⟩
      · exact .inl hd
    · rintro (hd | ⟨rfl, rfl⟩)
      · refine .inr ⟨?_, hd⟩
        rintro rfl
        exact hc (mem_of_indexed hd)
      · exact .inl ⟨rfl, rfl⟩
  case get =>
    intro i d
    have hget : (p.append c).get i = some d ↔
        (i = p.nextIndex ∧ c = d) ∨ (i ≠ p.nextIndex ∧ p.get i = some d) := by
      unfold ConstantPool.get
      show ((((p.nextIndex, p.pool.length) :: p.luti).lookup i).bind fun k => (p.pool ++ [c])[k]?) = some d ↔ _
      rw [Option.bind_eq_some_iff, Option.bind_eq_some_iff]
      constructor
      · rintro ⟨k, hk, hd⟩
        rcases lookup_cons_iff.mp hk with ⟨rfl, rfl⟩ | ⟨hne, hk⟩
        · rw [List.getElem?_concat_length] at hd
          exact .inl ⟨rfl, Option.some.inj hd⟩
        · rw [List.getElem?_append_left (h.luti i k hk)] at hd
          exact .inr ⟨hne, k, hk, hd⟩
      · rintro (⟨rfl, rfl⟩ | ⟨hne, k, hk, hd⟩)
        · exact ⟨p.pool.length, lookup_cons_iff.mpr (.inl ⟨rfl, rfl⟩), List.getElem?_concat_length⟩
        · refine ⟨k, lookup_cons_iff.mpr (.inr ⟨hne, hk⟩), ?_⟩
          rw [List.getElem?_append_left (h.luti i k hk)]
          exact hd
    rw [hget, hmem, h.get]
    constructor
    · rintro (⟨rfl, rfl⟩ | ⟨-, hd⟩)
      · exact .inr ⟨rfl, rfl⟩
      · exact .inl hd
    · rintro (hd | ⟨rfl, rfl⟩)
      · exact .inr ⟨(hrange hd).ne, hd⟩
      · exact .inl ⟨rfl, rfl⟩
  case luti =>
    intro i k hk
    show k < (p.pool ++ [c]).length
    rw [List.length_append, List.length_singleton]
    rcases lookup_cons_iff.mp hk with ⟨-, rfl⟩ | ⟨-, hk⟩
    · omega
    · have := h.luti i k hk
      omega
  case nextIndex =>
    show p.nextIndex + width c = 1 + slots (p.pool ++ [c])
    rw [slots_append, slots_cons, h.nextIndex]
    simp [slots]
    omega
  case isOpen => exact h.isOpen

/-- `add` finds the constant or puts it behind the others. -/
theorem add_cases {p : ConstantPool A B} (h : p.WF) (c : JvmConstant A B) :
    (c ∈ p.pool ∧ ∃ i, p.add c = some (i, p) ∧ (i, c) ∈ indexed 1 p.pool) ∨
    (c ∉ p.pool ∧ p.add c = some (p.nextIndex, p.append c)) := by
  by_cases hc : c ∈ p.pool
  · obtain ⟨i, hi⟩ := indexed_of_mem hc 1
    refine .inl ⟨hc, i, ?_, hi⟩
    rw [add, (h.lut c i).mpr hi]
  · have hnone : p.lut.lookup c = none := by
      by_contra hsome
      obtain ⟨i, hi⟩ := Option.ne_none_iff_exists'.mp hsome
      exact hc (mem_of_indexed ((h.lut c i).mp hi))
    refine .inr ⟨hc, ?_⟩
    rw [add, hnone]
    dsimp only
    rw [if_neg (by rw [h.isOpen]; decide)]
    cases c <;> rfl

theorem add_spec {p : ConstantPool A B} (h : p.WF) (c : JvmConstant A B) :
    ∃ i p', p.add c = some (i, p') ∧ p'.WF ∧ p'.pool = insertNew p.pool c ∧ (i, c) ∈ indexed 1 p'.pool := by
  rcases add_cases h c with ⟨hc, i, hadd, hi⟩ | ⟨hc, hadd⟩
  · exact ⟨i, p, hadd, h, (if_pos hc).symm, hi⟩
  · refine ⟨p.nextIndex, p.append c, hadd, append_wf h hc, (if_neg hc).symm, ?_⟩
    show (p.nextIndex, c) ∈ indexed 1 (p.pool ++ [c])
    rw [indexed_append, h.nextIndex]
    exact List.mem_append_right _ (List.mem_singleton.mpr rfl)

/-- After any calls the pool has the abstract pool, and every call has returned the place of its constant. -/
theorem addAll_spec {p : ConstantPool A B} (h : p.WF) (cs : List (JvmConstant A B)) :
    ∃ is p', p.addAll cs = some (is, p') ∧ p'.WF ∧ p'.pool = cs.foldl insertNew p.pool ∧
      List.Forall₂ (fun c i => (i, c) ∈ indexed 1 p'.pool) cs is := by
  induction cs generalizing p with
  | nil => exact ⟨[], p, rfl, h, rfl, .nil⟩
  | cons c cs ih =>
    obtain ⟨i, p1, hadd, h1, hpool1, hi⟩ := add_spec h c
    obtain ⟨is, p2, hall, h2, hpool2, his⟩ := ih h1
    refine ⟨i :: is, p2, ?_, h2, ?_, .cons ?_ his⟩
    · rw [addAll, hadd]
      show Option.bind (p1.addAll cs) (fun r => some (i :: r.1, r.2)) = _
      rw [hall]
      rfl
    · rw [hpool2, hpool1]
      rfl
    · rw [hpool2]
      exact indexed_foldl hi cs

end ConstantPool

end EvilHaxe.Jvm

/-! The constant pool against the class file. The indices always agree with the constants; the file has the constants at
their indices exactly where every constant survives. -/

namespace EvilHaxe.Jvm

open BigEndian ConstantPool

variable {A B : Type}

/-! ## The table of the file -/

theorem readEntries_cons {n i : Nat} {c : Entry} {b rest : List Nat} (hc : readConstant b = some (c, rest)) :
    readEntries (width c + n) i b = (readEntries n (i + width c) rest).map fun (l, rest) => ((i, c) :: l, rest) := by
  have hw : width c = 1 ∨ width c = 2 := by cases c <;> simp [width]
  rcases hw with hw | hw
  · rw [hw, Nat.add_comm, readEntries, hc]
    cases h : readEntries n (i + 1) rest <;> simp [hw, h]
  · rw [hw, Nat.add_comm, readEntries, hc]
    cases h : readEntries n (i + 2) rest <;> simp [hw, h]

def writtenAt (F : FloatBits A B) : Nat × JvmConstant A B → Nat × Entry := fun (i, c) => (i, written F c)

def entryAt (F : FloatBits A B) : Nat × JvmConstant A B → Nat × Entry := fun (i, c) => (i, entry F c)

theorem writeConstants_cons {F : FloatBits A B} {c : JvmConstant A B} {l : List (JvmConstant A B)} {b : List Nat}
    (h : writeConstants F (c :: l) = some b) :
    ∃ b1 b2, writeConstant F c = some b1 ∧ writeConstants F l = some b2 ∧ b = b1 ++ b2 := by
  obtain ⟨b1, h1, h⟩ := Option.bind_eq_some_iff.mp h
  obtain ⟨b2, h2, h⟩ := Option.bind_eq_some_iff.mp h
  exact ⟨b1, b2, h1, h2, (Option.some.inj h).symm⟩

theorem readEntries_write (F : FloatBits A B) {l : List (JvmConstant A B)} {b : List Nat}
    (h : writeConstants F l = some b) (i : Nat) :
    readEntries (slots l) i b = some ((indexed i l).map (writtenAt F), []) := by
  induction l generalizing i b with
  | nil =>
    obtain rfl := Option.some.inj h
    rfl
  | cons c l ih =>
    obtain ⟨b1, b2, h1, h2, rfl⟩ := writeConstants_cons h
    rw [slots_cons, ← width_written F c, readEntries_cons (readConstant_write F h1 b2), width_written, ih h2]
    rfl

theorem writeConstants_isSome (F : FloatBits A B) (l : List (JvmConstant A B)) :
    (writeConstants F l).isSome ↔ ∀ c ∈ l, Fits c := by
  induction l with
  | nil => simp [writeConstants]
  | cons c l ih =>
    rw [List.forall_mem_cons, ← ih, ← writeConstant_isSome F]
    constructor
    · intro h
      obtain ⟨b, hb⟩ := Option.isSome_iff_exists.mp h
      obtain ⟨b1, b2, h1, h2, -⟩ := writeConstants_cons hb
      rw [h1, h2]
      exact ⟨rfl, rfl⟩
    · rintro ⟨h1, h2⟩
      obtain ⟨b1, h1⟩ := Option.isSome_iff_exists.mp h1
      obtain ⟨b2, h2⟩ := Option.isSome_iff_exists.mp h2
      rw [writeConstants, h1, h2]
      rfl

/-- The file is read as the constants that were written. -/
theorem readPool_write (F : FloatBits A B) {p : ConstantPool A B} (hp : p.nextIndex = 1 + slots p.pool)
    {bytes : List Nat} (h : write F p = some bytes) :
    readPool bytes = some ((indexed 1 p.pool).map (writtenAt F)) := by
  obtain ⟨b1, h1, h⟩ := Option.bind_eq_some_iff.mp h
  obtain ⟨b2, h2, h⟩ := Option.bind_eq_some_iff.mp h
  obtain rfl := Option.some.inj h
  obtain ⟨hn, rfl⟩ := writeUi16_some h1
  have hcount : ((p.nextIndex : Int).toNat - 1) = slots p.pool := by omega
  rw [readPool, readUi16_write hn]
  show (do
    let (entries, rest) ← readEntries ((p.nextIndex : Int).toNat - 1) 1 b2
    if rest = [] then return entries else none) = _
  rw [hcount, readEntries_write F h2]
  rfl

/-! ## Room in the file -/

variable [DecidableEq A] [DecidableEq B]

/-- The file has room for the constants and for their number. -/
def Closes (cs : List (JvmConstant A B)) : Prop := (∀ c ∈ cs, Fits c) ∧ 1 + slots (distinct cs) ≤ 0xFFFF

theorem write_isSome (F : FloatBits A B) {p : ConstantPool A B} {cs : List (JvmConstant A B)}
    (hp : p.nextIndex = 1 + slots p.pool) (hpool : p.pool = distinct cs) : (write F p).isSome ↔ Closes cs := by
  have hfits : (∀ c ∈ p.pool, Fits c) ↔ ∀ c ∈ cs, Fits c := by
    rw [hpool]
    exact ⟨fun h c hc => h c (mem_distinct.mpr hc), fun h c hc => h c (mem_distinct.mp hc)⟩
  unfold Closes
  rw [← hfits, ← writeConstants_isSome F, ← hpool, ← hp]
  constructor
  · intro h
    obtain ⟨b, hb⟩ := Option.isSome_iff_exists.mp h
    obtain ⟨b1, h1, hb⟩ := Option.bind_eq_some_iff.mp hb
    obtain ⟨b2, h2, -⟩ := Option.bind_eq_some_iff.mp hb
    obtain ⟨-, hle⟩ := (writeUi16_some h1).1
    rw [h2]
    exact ⟨rfl, by omega⟩
  · rintro ⟨h1, h2⟩
    obtain ⟨b, h1⟩ := Option.isSome_iff_exists.mp h1
    rw [write, writeUi16_eq (n := p.nextIndex) ⟨by omega, by omega⟩, h1]
    rfl

/-! ## The pool and its file -/

/-- What a pool owes to the calls `cs` of `add` that have returned `is`. -/
structure Faithful (F : FloatBits A B) (cs : List (JvmConstant A B)) (is : List Nat) (p : ConstantPool A B) : Prop where
  equal : ∀ c d i j, (c, i) ∈ cs.zip is → (d, j) ∈ cs.zip is → (c = d ↔ i = j)
  start : ∀ c i, (c, i) ∈ cs.zip is → 1 ≤ i ∧ (cs.head? = some c → i = 1)
  apart : ∀ c d i j, (c, i) ∈ cs.zip is → (d, j) ∈ cs.zip is → c ≠ d → i + width c ≤ j ∨ j + width d ≤ i
  next : ∀ c i, (c, i) ∈ cs.zip is → i + width c = p.nextIndex ∨ ∃ d, (d, i + width c) ∈ cs.zip is
  get : ∀ c i, (c, i) ∈ cs.zip is → p.get i = some c
  read : ∀ bytes, (p.close F).2 = some bytes →
    ∃ entries, readPool bytes = some entries ∧ entries.Pairwise (fun a b => a.1 < b.1) ∧
      ∀ i e, (i, e) ∈ entries ↔ ∃ c, (c, i) ∈ cs.zip is ∧ e = entry F c

omit [DecidableEq A] [DecidableEq B] in
theorem zip_indexed {cs l : List (JvmConstant A B)} {is : List Nat} (hl : l.Nodup) (hmem : ∀ c, c ∈ l ↔ c ∈ cs)
    (h : List.Forall₂ (fun c i => (i, c) ∈ indexed 1 l) cs is) (c : JvmConstant A B) (i : Nat) :
    (c, i) ∈ cs.zip is ↔ (i, c) ∈ indexed 1 l := by
  obtain ⟨hlen, hzip⟩ := List.forall₂_iff_zip.mp h
  refine ⟨fun hc => hzip hc, fun hc => ?_⟩
  have hcs : c ∈ (cs.zip is).map Prod.fst := by
    rw [List.map_fst_zip hlen.le]
    exact (hmem c).mp (mem_of_indexed hc)
  obtain ⟨⟨c', j⟩, hj, rfl⟩ := List.mem_map.mp hcs
  rcases indexed_disjoint hl hc (hzip hj) with ⟨rfl, -⟩ | ⟨hne, -⟩
  · exact hj
  · exact absurd rfl hne

theorem insertNew_head {c : JvmConstant A B} {l : List (JvmConstant A B)} (cs : List (JvmConstant A B)) :
    ∃ r, cs.foldl insertNew (c :: l) = c :: r := by
  induction cs generalizing l with
  | nil => exact ⟨l, rfl⟩
  | cons d cs ih =>
    rw [List.foldl_cons, insertNew]
    split
    · exact ih
    · exact ih

theorem distinct_head (c : JvmConstant A B) (cs : List (JvmConstant A B)) : (1, c) ∈ indexed 1 (distinct (c :: cs)) := by
  obtain ⟨r, hr⟩ := insertNew_head (c := c) (l := []) cs
  have e : distinct (c :: cs) = c :: r := hr
  rw [e]
  exact List.mem_cons_self

/-- The file is right exactly where it has the words of a long in order. -/
theorem read_iff (F : FloatBits A B) {cs : List (JvmConstant A B)} {is : List Nat} {p : ConstantPool A B} (h : p.WF)
    (hpool : p.pool = distinct cs) (hzip : ∀ c i, (c, i) ∈ cs.zip is ↔ (i, c) ∈ indexed 1 p.pool) :
    (∀ bytes, (p.close F).2 = some bytes →
      ∃ entries, readPool bytes = some entries ∧ entries.Pairwise (fun a b => a.1 < b.1) ∧
        ∀ i e, (i, e) ∈ entries ↔ ∃ c, (c, i) ∈ cs.zip is ∧ e = entry F c) ↔
      (Closes cs → ∀ c ∈ cs, Survives c) := by
  have hsome := write_isSome F (p := { p with closed := true }) h.nextIndex hpool
  constructor
  · intro hread hcloses c hc
    obtain ⟨bytes, hb⟩ := Option.isSome_iff_exists.mp (hsome.mpr hcloses)
    obtain ⟨entries, he, -, hentries⟩ := hread bytes hb
    rw [readPool_write F h.nextIndex hb] at he
    obtain rfl := Option.some.inj he
    -- the place of `c` has one constant in the file
    obtain ⟨i, hi⟩ := indexed_of_mem (show c ∈ p.pool from hpool ▸ mem_distinct.mpr hc) 1
    have hw : (i, written F c) ∈ (indexed 1 p.pool).map (writtenAt F) := List.mem_map_of_mem (f := writtenAt F) hi
    obtain ⟨d, hd, heq⟩ := (hentries i _).mp hw
    rcases indexed_disjoint h.nodup hi ((hzip d i).mp hd) with ⟨-, rfl⟩ | ⟨-, hne⟩
    · exact (written_entry F c).mp heq
    · have := width_pos c
      have := width_pos d
      omega
  · intro hsurvive bytes hb
    have hcloses : Closes cs := hsome.mp (Option.isSome_iff_exists.mpr ⟨bytes, hb⟩)
    have hall : ∀ c ∈ p.pool, Survives c := by
      intro c hc
      exact hsurvive hcloses c (mem_distinct.mp (hpool ▸ hc))
    refine ⟨_, readPool_write F h.nextIndex hb, ?_, ?_⟩
    · exact (indexed_ascending 1 p.pool).map _ fun a b hlt => hlt
    · intro i e
      constructor
      · intro he
        obtain ⟨⟨j, c⟩, hc, heq⟩ := List.mem_map.mp he
        obtain ⟨rfl, rfl⟩ := Prod.mk.inj heq
        exact ⟨c, (hzip c j).mpr hc, (written_entry F c).mpr (hall c (mem_of_indexed hc))⟩
      · rintro ⟨c, hc, rfl⟩
        have hi := (hzip c i).mp hc
        have hw : (i, written F c) ∈ (indexed 1 p.pool).map (writtenAt F) := List.mem_map_of_mem (f := writtenAt F) hi
        rw [(written_entry F c).mpr (hall c (mem_of_indexed hi))] at hw
        exact hw

theorem faithful_iff_read (F : FloatBits A B) {cs : List (JvmConstant A B)} {is : List Nat} {p : ConstantPool A B}
    (h : p.WF) (hpool : p.pool = distinct cs) (hzip : ∀ c i, (c, i) ∈ cs.zip is ↔ (i, c) ∈ indexed 1 p.pool) :
    Faithful F cs is p ↔ (Closes cs → ∀ c ∈ cs, Survives c) := by
  rw [← read_iff F h hpool hzip]
  refine ⟨Faithful.read, fun hread => ?_⟩
  constructor
  case equal =>
    intro c d i j hc hd
    have hwc := width_pos c
    have hwd := width_pos d
    rcases indexed_disjoint h.nodup ((hzip c i).mp hc) ((hzip d j).mp hd) with ⟨rfl, rfl⟩ | ⟨hne, hlt⟩
    · exact iff_of_true rfl rfl
    · exact iff_of_false hne (by omega)
  case start =>
    intro c i hc
    have hi := (hzip c i).mp hc
    refine ⟨(indexed_range hi).1, fun hhead => ?_⟩
    obtain ⟨rest, rfl⟩ : ∃ rest, cs = c :: rest := by
      cases cs with
      | nil => cases hhead
      | cons d rest => exact ⟨rest, by rw [Option.some.inj hhead]⟩
    rw [hpool] at hi
    rcases indexed_disjoint (distinct_nodup _) hi (distinct_head c rest) with ⟨rfl, -⟩ | ⟨hne, -⟩
    · rfl
    · exact absurd rfl hne
  case apart =>
    intro c d i j hc hd hne
    rcases indexed_disjoint h.nodup ((hzip c i).mp hc) ((hzip d j).mp hd) with ⟨-, heq⟩ | ⟨-, hlt⟩
    · exact absurd heq hne
    · exact hlt
  case next =>
    intro c i hc
    rw [h.nextIndex]
    rcases indexed_next ((hzip c i).mp hc) with hnext | ⟨d, hd⟩
    · exact .inl hnext
    · exact .inr ⟨d, (hzip d _).mpr hd⟩
  case get => exact fun c i hc => (h.get i c).mpr ((hzip c i).mp hc)
  case read => exact hread

end EvilHaxe.Jvm
