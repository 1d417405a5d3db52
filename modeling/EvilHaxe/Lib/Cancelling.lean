/-
Steps that are read one by one while `up` cancels the latest step that is left. Where that is a step down nothing is lost;
where it is a step that stays, the names that are left and the place the steps lead to part, and come together again at
the root only.
-/
import EvilHaxe.Lib.Steps

namespace Lib.Step

variable {α : Type}

/-- Reading the steps `w` leaves `s`, the latest first, and each `up` cancelled a step that `may` be cancelled. -/
inductive Cancels (may : Step α → Prop) : List (Step α) → List (Step α) → Prop
  | nil : Cancels may [] []
  | stay {w s : List (Step α)} {a : Step α} (h : Cancels may w s) (ha : a ≠ .up) : Cancels may (w ++ [a]) (a :: s)
  | cancel {w s : List (Step α)} {a : Step α} (h : Cancels may w (a :: s)) (ha : may a) : Cancels may (w ++ [.up]) s

def IsDown (a : Step α) : Prop := ∃ name, a = .down name

def Anything (_ : Step α) : Prop := True

/-- The names of the steps that are left. -/
def left (s : List (Step α)) : List α :=
  s.filterMap fun a => match a with
    | .down name => some name
    | _ => none

@[simp] theorem left_nil : left ([] : List (Step α)) = [] := rfl

@[simp] theorem left_here (s : List (Step α)) : left (.here :: s) = left s := rfl

@[simp] theorem left_up (s : List (Step α)) : left (.up :: s) = left s := rfl

@[simp] theorem left_down (name : α) (s : List (Step α)) : left (.down name :: s) = name :: left s := rfl

@[simp] theorem left_append (s s' : List (Step α)) : left (s ++ s') = left s ++ left s' := List.filterMap_append

/-- Reading leads back to the root: no name is left. -/
def Rooted (w : List (Step α)) : Prop := ∃ s, Cancels Anything w s ∧ left s = []

/-- Reading leads back to the root, and from there on only names are cancelled. -/
def Synced (w : List (Step α)) : Prop := ∃ w1 w2 s2, w = w1 ++ w2 ∧ Rooted w1 ∧ Cancels IsDown w2 s2

section

variable {may may' : Step α → Prop} {w w' s s' : List (Step α)}

theorem Cancels.mono (h : Cancels may w s) (hle : ∀ a, may a → may' a) : Cancels may' w s := by
  induction h with
  | nil => exact .nil
  | stay _ ha ih => exact .stay ih ha
  | cancel _ ha ih => exact .cancel ih (hle _ ha)

theorem Cancels.append (h : Cancels may w s) (h' : Cancels may w' s') : Cancels may (w ++ w') (s' ++ s) := by
  induction h' with
  | nil => simpa using h
  | stay _ ha ih =>
    rw [← List.append_assoc]
    exact .stay ih ha
  | cancel _ ha ih =>
    rw [← List.append_assoc]
    exact .cancel ih ha

theorem cancels_snoc {a : Step α} (h : Cancels may (w ++ [a]) s) :
    (a ≠ .up ∧ ∃ s0, s = a :: s0 ∧ Cancels may w s0) ∨ (a = .up ∧ ∃ b, Cancels may w (b :: s) ∧ may b) := by
  generalize hw : w ++ [a] = w0 at h
  cases h with
  | nil => simp at hw
  | stay h ha =>
    obtain ⟨rfl, heq⟩ := List.append_inj' hw rfl
    obtain rfl := List.singleton_inj.1 heq
    exact .inl ⟨ha, _, rfl, h⟩
  | cancel h ha =>
    obtain ⟨rfl, heq⟩ := List.append_inj' hw rfl
    obtain rfl := List.singleton_inj.1 heq
    exact .inr ⟨rfl, _, h, ha⟩

theorem not_cancels_snoc {a : Step α} (h : ¬ ∃ s, Cancels may w s) : ¬ ∃ s, Cancels may (w ++ [a]) s := by
  rintro ⟨s, hs⟩
  rcases cancels_snoc hs with ⟨-, s0, -, h0⟩ | ⟨-, b, h0, -⟩
  · exact h ⟨s0, h0⟩
  · exact h ⟨_, h0⟩

theorem Cancels.unique (h : Cancels may w s) : ∀ {s'}, Cancels may w s' → s = s' := by
  induction h with
  | nil =>
    intro s' h'
    generalize hw : ([] : List (Step α)) = w0 at h'
    cases h' with
    | nil => rfl
    | stay => simp at hw
    | cancel => simp at hw
  | stay _ ha ih =>
    intro s' h'
    rcases cancels_snoc h' with ⟨-, s0, rfl, h0⟩ | ⟨hup, -⟩
    · rw [ih h0]
    · exact absurd hup ha
  | cancel _ _ ih =>
    intro s' h'
    rcases cancels_snoc h' with ⟨hup, -⟩ | ⟨-, b, h0, -⟩
    · exact absurd rfl hup
    · exact (List.cons.inj (ih h0)).2

theorem Cancels.up_not_mem (h : Cancels may w s) : .up ∉ s := by
  induction h with
  | nil => exact List.not_mem_nil
  | stay _ ha ih => exact fun hmem => (List.mem_cons.1 hmem).elim (fun h => ha h.symm) ih
  | cancel _ _ ih => exact fun hmem => ih (List.mem_cons_of_mem _ hmem)

/-- A step that is left splits what was read. -/
theorem Cancels.split (h : Cancels may w s) : ∀ {x y : List (Step α)} {a : Step α}, s = x ++ a :: y →
    ∃ w1 w2, w = w1 ++ a :: w2 ∧ Cancels may w1 y ∧ Cancels may w2 x := by
  induction h with
  | nil =>
    intro x y a hs
    simp at hs
  | stay h0 ha ih =>
    intro x y a hs
    cases x with
    | nil =>
      obtain ⟨rfl, rfl⟩ := List.cons.inj hs
      exact ⟨_, [], rfl, h0, .nil⟩
    | cons b x =>
      obtain ⟨rfl, hrest⟩ := List.cons.inj hs
      obtain ⟨w1, w2, rfl, h1, h2⟩ := ih hrest
      exact ⟨w1, w2 ++ [_], by simp, h1, .stay h2 ha⟩
  | cancel h0 ha ih =>
    intro x y a hs
    obtain ⟨w1, w2, rfl, h1, h2⟩ := ih (x := _ :: x) (congrArg _ hs)
    exact ⟨w1, w2 ++ [.up], by simp, h1, .cancel h2 ha⟩

/-- What only names are cancelled from leads where the names that are left lead. -/
theorem Cancels.walk_eq (h : Cancels IsDown w s) (place : List α) : walk place w = left s ++ place := by
  induction h with
  | nil => rfl
  | @stay w s a _ ha ih =>
    rw [walk_append, ih]
    cases a with
    | here => rfl
    | up => exact absurd rfl ha
    | down name => rfl
  | @cancel w s a _ ha ih =>
    obtain ⟨name, rfl⟩ := ha
    rw [walk_append, ih]
    rfl

/-! ## Names left and the place reached -/

/-- The place `t` is not as deep as the names `d`, below what they have in common. -/
def Lag (d t : List α) : Prop := ∃ common more less, d = common ++ more ∧ t = common ++ less ∧ less.length < more.length

theorem Lag.length {d t : List α} (h : Lag d t) : t.length < d.length := by
  obtain ⟨common, more, less, rfl, rfl, hlt⟩ := h
  simpa using hlt

theorem lag_tail {d : List α} (h : d ≠ []) : Lag d d.tail := by
  obtain ⟨a, d, rfl⟩ := List.exists_cons_of_ne_nil h
  exact ⟨[], a :: d, d, rfl, rfl, Nat.lt_succ_self _⟩

theorem Lag.down {d t : List α} (h : Lag d t) (name : α) : Lag (name :: d) (name :: t) := by
  obtain ⟨common, more, less, rfl, rfl, hlt⟩ := h
  exact ⟨name :: common, more, less, rfl, rfl, hlt⟩

theorem Lag.wasted {d t : List α} (h : Lag d t) : Lag d t.tail := by
  have hlt := h.length
  exact ⟨[], d, t.tail, rfl, rfl, by rw [List.length_tail]; omega⟩

theorem Lag.up {d t : List α} (h : Lag d t) : d.tail = [] ∧ t.tail = [] ∨ Lag d.tail t.tail := by
  obtain ⟨common, more, less, rfl, rfl, hlt⟩ := h
  cases common with
  | cons a common => exact .inr ⟨common, more, less, rfl, rfl, hlt⟩
  | nil =>
    cases more with
    | nil => cases hlt
    | cons b more =>
      cases less with
      | cons c less => exact .inr ⟨[], more, less, rfl, rfl, Nat.lt_of_succ_lt_succ hlt⟩
      | nil =>
        cases more with
        | nil => exact .inl ⟨rfl, rfl⟩
        | cons b' more => exact .inr ⟨[], b' :: more, [], rfl, rfl, Nat.zero_lt_succ _⟩

theorem Rooted.synced (h : Rooted w) : Synced w := ⟨w, [], [], by simp, h, .nil⟩

/-- From the root the names that are left are the place reached, as long as the steps are in step; otherwise there are
more of them. -/
theorem synced_or_lag (h : Cancels Anything w s) :
    Synced w ∧ left s = walk [] w ∨ Lag (left s) (walk [] w) := by
  induction h with
  | nil => exact .inl ⟨Rooted.synced ⟨[], .nil, rfl⟩, rfl⟩
  | @stay w s a h0 ha ih =>
    rw [walk_append]
    rcases ih with ⟨⟨w1, w2, s2, rfl, hroot, h2⟩, heq⟩ | hlag
    · refine .inl ⟨⟨w1, w2 ++ [a], a :: s2, by simp, hroot, .stay h2 ha⟩, ?_⟩
      rw [← heq]
      cases a with
      | here => rfl
      | up => exact absurd rfl ha
      | down name => rfl
    · cases a with
      | here => exact .inr hlag
      | up => exact absurd rfl ha
      | down name => exact .inr (hlag.down name)
  | @cancel w s a h0 ha ih =>
    rw [walk_append, walk_cons, walk_nil, move]
    have hall : Cancels Anything (w ++ [.up]) s := .cancel h0 trivial
    rcases ih with ⟨⟨w1, w2, s2, rfl, ⟨s1, h1, hleft1⟩, h2⟩, heq⟩ | hlag
    · -- what is left of both parts
      have hs : a :: s = s2 ++ s1 := h0.unique (h1.append (h2.mono fun _ _ => trivial))
      by_cases hnone : left s = [] ∧ left (a :: s) = []
      · exact .inl ⟨Rooted.synced ⟨s, hall, hnone.1⟩, by rw [← heq, hnone.1, hnone.2]; rfl⟩
      cases a with
      | up => exact absurd List.mem_cons_self h0.up_not_mem
      | here =>
        refine .inr ?_
        rw [← heq, left_here]
        exact lag_tail fun hnil => hnone ⟨hnil, hnil⟩
      | down name =>
        have hs2 : ∃ s2', s2 = .down name :: s2' := by
          cases s2 with
          | nil =>
            rw [List.nil_append] at hs
            rw [← hs] at hleft1
            cases hleft1
          | cons b s2 => exact ⟨s2, by rw [(List.cons.inj hs).1]⟩
        obtain ⟨s2', rfl⟩ := hs2
        refine .inl ⟨⟨w1, w2 ++ [.up], s2', by simp, ⟨s1, h1, hleft1⟩, .cancel h2 ⟨name, rfl⟩⟩, ?_⟩
        rw [← heq]
        rfl
    · cases a with
      | up => exact absurd List.mem_cons_self h0.up_not_mem
      | here => exact .inr hlag.wasted
      | down name =>
        rcases hlag.up with ⟨hd, ht⟩ | hlag
        · exact .inl ⟨Rooted.synced ⟨s, hall, hd⟩, by rw [ht]; exact hd⟩
        · exact .inr hlag

theorem length_walk_le (h : Cancels Anything w s) : (walk [] w).length ≤ (left s).length := by
  rcases synced_or_lag h with ⟨-, heq⟩ | hlag
  · exact Nat.le_of_eq (congrArg List.length heq.symm)
  · exact Nat.le_of_lt hlag.length

theorem Rooted.walk_eq (h : Rooted w) : walk [] w = [] := by
  obtain ⟨s, hs, hleft⟩ := h
  have hle := length_walk_le hs
  rw [hleft] at hle
  exact List.length_eq_zero_iff.1 (Nat.le_zero.1 hle)

/-- The names that are left are the place reached exactly where the steps are in step. -/
theorem left_eq_walk_iff (h : Cancels Anything w s) : left s = walk [] w ↔ Synced w := by
  constructor
  · intro heq
    rcases synced_or_lag h with ⟨hsynced, -⟩ | hlag
    · exact hsynced
    · have hlt := hlag.length
      rw [heq] at hlt
      exact absurd hlt (Nat.lt_irrefl _)
  · rintro ⟨w1, w2, s2, rfl, hroot, h2⟩
    have hwalk := hroot.walk_eq
    obtain ⟨s1, h1, hleft⟩ := hroot
    obtain rfl := h.unique (h1.append (h2.mono fun _ _ => trivial))
    rw [walk_append, hwalk, h2.walk_eq, left_append, hleft]

theorem exists_of_left_eq {name : α} (hs : left s = [name]) :
    ∃ x y, s = x ++ .down name :: y ∧ left x = [] ∧ left y = [] := by
  induction s with
  | nil => cases hs
  | cons a s ih =>
    cases a with
    | down name' =>
      rw [left_down] at hs
      obtain ⟨rfl, hrest⟩ := List.cons.inj hs
      exact ⟨[], s, rfl, rfl, hrest⟩
    | here =>
      obtain ⟨x, y, rfl, hx, hy⟩ := ih hs
      exact ⟨.here :: x, y, rfl, hx, hy⟩
    | up =>
      obtain ⟨x, y, rfl, hx, hy⟩ := ih hs
      exact ⟨.up :: x, y, rfl, hx, hy⟩

/-- One step up further, the root hides that a single name too many is left. -/
theorem tail_eq_walk_iff (h : Cancels Anything w s) :
    (left s).tail = (walk [] w).tail ↔
      Synced w ∨ ∃ w1 name w2, w = w1 ++ .down name :: w2 ∧ Rooted w1 ∧ Rooted w2 := by
  constructor
  · intro heq
    rcases synced_or_lag h with ⟨hsynced, -⟩ | hlag
    · exact .inl hsynced
    rcases hlag.up with ⟨hd, -⟩ | hlag'
    · have hlt := hlag.length
      obtain ⟨name, hname⟩ : ∃ name, left s = [name] := by
        cases hleft : left s with
        | nil =>
          rw [hleft] at hlt
          exact absurd hlt (Nat.not_lt_zero _)
        | cons name rest =>
          rw [hleft] at hd
          exact ⟨name, congrArg _ hd⟩
      obtain ⟨x, y, rfl, hx, hy⟩ := exists_of_left_eq hname
      obtain ⟨w1, w2, rfl, h1, h2⟩ := h.split rfl
      exact .inr ⟨w1, name, w2, rfl, ⟨y, h1, hy⟩, ⟨x, h2, hx⟩⟩
    · have hlt := hlag'.length
      rw [heq] at hlt
      exact absurd hlt (Nat.lt_irrefl _)
  · rintro (hsynced | ⟨w1, name, w2, rfl, ⟨s1, h1, hleft1⟩, ⟨s2, h2, hleft2⟩⟩)
    · rw [(left_eq_walk_iff h).2 hsynced]
    · have hname : Cancels Anything (w1 ++ [.down name]) (.down name :: s1) := .stay h1 nofun
      have hall := hname.append h2
      rw [List.append_assoc, List.singleton_append] at hall
      have hle := length_walk_le h
      obtain rfl := h.unique hall
      have hleft : left (s2 ++ .down name :: s1) = [name] := by
        rw [left_append, hleft2, left_down, hleft1]
        rfl
      rw [hleft] at hle ⊢
      refine (List.length_eq_zero_iff.1 ?_).symm
      rw [List.length_tail]
      exact Nat.sub_eq_zero_of_le hle

/-! ## Depth -/

/-- How far down steps lead. -/
def depth : List (Step α) → Int
  | [] => 0
  | .here :: w => depth w
  | .up :: w => depth w - 1
  | .down _ :: w => depth w + 1

theorem depth_append (w w' : List (Step α)) : depth (w ++ w') = depth w + depth w' := by
  induction w with
  | nil => simp [depth]
  | cons a w ih =>
    cases a with
    | here => exact ih
    | up =>
      simp only [List.cons_append, depth, ih]
      omega
    | down name =>
      simp only [List.cons_append, depth, ih]
      omega

/-- Where only names are cancelled, the names that are left are as many as the steps lead down. -/
theorem Cancels.depth_eq {w s : List (Step α)} (h : Cancels IsDown w s) : depth w = (left s).length := by
  induction h with
  | nil => rfl
  | @stay w s a _ ha ih =>
    rw [depth_append, ih]
    cases a with
    | here => simp [depth]
    | up => exact absurd rfl ha
    | down name => simp [depth]
  | @cancel w s a _ ha ih =>
    obtain ⟨name, rfl⟩ := ha
    rw [depth_append, ih]
    simp only [depth, left_down, List.length_cons]
    omega

/-- Far enough from the root, a place is as much deeper as the steps to it lead down. -/
theorem length_walk {place : List α} {w : List (Step α)} (h : w.length ≤ place.length) :
    ((walk place w).length : Int) = place.length + depth w := by
  induction w generalizing place with
  | nil => simp [depth]
  | cons a w ih =>
    rw [List.length_cons] at h
    cases a with
    | here =>
      rw [walk_cons, move, depth]
      exact ih (by omega)
    | up =>
      have hlen : place.tail.length = place.length - 1 := List.length_tail
      rw [walk_cons, move, depth, ih (by omega), hlen]
      omega
    | down name =>
      rw [walk_cons, move, depth, ih (by rw [List.length_cons]; omega), List.length_cons]
      omega

end

end Lib.Step
