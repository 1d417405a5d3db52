/-
Arrays of the interpreter refine lists, except where a write brings slots into sight that `shift`, `remove` or `splice`
left filled. The elements of an array are the slots up to its length; each method is specified on them.
-/
import Mathlib.Data.List.Forall2
import Mathlib.Data.List.GetD
import Mathlib.Order.MinMax
import EvilHaxe.Eval.Array

namespace EvilHaxe.Eval

variable {V : Type}

/-! ## The arrays of OCaml -/

namespace OcamlArray

theorem blit_eq {src dst : List V} {srcPos dstPos len : Nat} (hs : srcPos + len ≤ src.length)
    (hd : dstPos + len ≤ dst.length) :
    blit src srcPos dst dstPos len = some (dst.take dstPos ++ (src.drop srcPos).take len ++ dst.drop (dstPos + len)) :=
  if_pos ⟨hs, hd⟩

/-- A part of an array is moved over another part. -/
theorem blit_parts {src dst p m q x y z : List V} (hsrc : src = x ++ (y ++ z)) (hdst : dst = p ++ (m ++ q))
    (hm : m.length = y.length) {srcPos dstPos len : Nat} (hs : srcPos = x.length) (hd : dstPos = p.length)
    (hl : len = y.length) : blit src srcPos dst dstPos len = some (p ++ (y ++ q)) := by
  subst hsrc hdst hs hd hl
  rw [blit_eq (by simp) (by simp; omega)]
  have hdrop : (p ++ (m ++ q)).drop (p.length + y.length) = q := by
    rw [← hm, ← List.append_assoc, ← List.length_append, List.drop_left]
  rw [hdrop, List.take_left, List.drop_left, List.take_left, List.append_assoc]

/-- What is moved stands where it was moved to. -/
theorem blit_over {src dst p w x y z : List V} (hsrc : src = x ++ (y ++ z)) (hdst : dst = p ++ w)
    (hw : y.length ≤ w.length) {srcPos dstPos len : Nat} (hs : srcPos = x.length) (hd : dstPos = p.length)
    (hl : len = y.length) : ∃ q, blit src srcPos dst dstPos len = some (p ++ (y ++ q)) := by
  refine ⟨w.drop y.length, blit_parts (m := w.take y.length) hsrc ?_ ?_ hs hd hl⟩
  · rw [List.take_append_drop, hdst]
  · rw [List.length_take, min_eq_left hw]

theorem set_parts {p q : List V} {r v : V} {i : Nat} (hi : i = p.length) :
    set (p ++ r :: q) i v = some (p ++ v :: q) := by
  subst hi
  unfold set
  rw [if_pos (by simp)]
  simp

theorem set_eq {values : List V} {i : Nat} (h : i < values.length) (v : V) : set values i v = some (values.set i v) :=
  if_pos h

theorem sub_eq {values : List V} {pos len : Nat} (h : pos + len ≤ values.length) :
    sub values pos len = some ((values.drop pos).take len) :=
  if_pos h

end OcamlArray

/-! ## Elements -/

namespace Varray

def elements (a : Varray V) : List V := a.avalues.take a.alength

/-- There is a slot for each element. -/
def Valid (a : Varray V) : Prop := a.alength ≤ a.avalues.length

/-- An array in order, with its elements. -/
def Has (a : Varray V) (l : List V) : Prop := a.Valid ∧ a.elements = l

theorem Has.length {a : Varray V} {l : List V} (h : a.Has l) : a.alength = l.length := by
  obtain ⟨hv, rfl⟩ := h
  unfold elements
  rw [List.length_take]
  exact (min_eq_left hv).symm

theorem Has.le {a : Varray V} {l : List V} (h : a.Has l) : l.length ≤ a.avalues.length := h.length ▸ h.1

theorem Has.getElem? {a : Varray V} {l : List V} (h : a.Has l) {i : Nat} (hi : i < l.length) : a.avalues[i]? = l[i]? := by
  have := h.length
  obtain ⟨-, rfl⟩ := h
  unfold elements
  rw [List.getElem?_take_of_lt (by omega)]

theorem Has.take {a : Varray V} {l : List V} (h : a.Has l) {n : Nat} (hn : n ≤ l.length) :
    a.avalues.take n = l.take n := by
  have := h.length
  obtain ⟨-, rfl⟩ := h
  unfold elements
  rw [List.take_take, min_eq_left (by omega)]

/-- An array is known by its length and its first slots. -/
theorem has_append {l rest : List V} {n : Nat} (hn : n = l.length) : Has ⟨l ++ rest, n⟩ l := by
  subst hn
  refine ⟨?_, ?_⟩
  · unfold Valid
    simp
  · unfold elements
    simp

theorem Has.eq {a : Varray V} {l : List V} (h : a.Has l) : ∃ rest, a = ⟨l ++ rest, l.length⟩ := by
  have hlen := h.length
  obtain ⟨values, n⟩ := a
  refine ⟨values.drop n, ?_⟩
  obtain rfl := h.2
  unfold elements at hlen ⊢
  simp only at hlen ⊢
  rw [List.take_append_drop, ← hlen]

end Varray

open Varray

variable {env : Env V}

theorem getD_of_has {a : Varray V} {l : List V} (h : a.Has l) {i : Nat} (hi : i < l.length) (d : V) :
    a.avalues.getD i d = l.getD i d := by
  rw [List.getD_eq_getElem?_getD, List.getD_eq_getElem?_getD, h.getElem? hi]

theorem get_of_has {a : Varray V} {l : List V} (h : a.Has l) (vnull : V) (i : Int) :
    EvalArray.get vnull a i = ListArray.get vnull l i := by
  have hlen := h.length
  unfold EvalArray.get ListArray.get
  by_cases hneg : i < 0
  · rw [if_pos (.inl hneg), if_pos hneg]
  rw [if_neg hneg]
  by_cases hge : i ≥ a.alength
  · rw [if_pos (.inr hge), List.getD_eq_default]
    omega
  · rw [if_neg (by omega), getD_of_has h (by omega)]

theorem shows_iff {a : Varray V} (hv : a.Valid) (l : List V) : Shows env a l ↔ a.Has l := by
  constructor
  · rintro ⟨hlen, hget⟩
    refine ⟨hv, ?_⟩
    have hself : a.Has a.elements := ⟨hv, rfl⟩
    have hlen' := hself.length
    apply List.ext_getElem?
    intro i
    by_cases hi : i < l.length
    · have h := (get_of_has hself env.vnull i).symm.trans (hget i)
      unfold ListArray.get at h
      rw [if_neg (by omega), if_neg (by omega), Int.toNat_natCast, List.getD_eq_getElem?_getD,
        List.getD_eq_getElem?_getD, List.getElem?_eq_getElem (by omega), List.getElem?_eq_getElem hi] at h
      rw [List.getElem?_eq_getElem (by omega), List.getElem?_eq_getElem hi]
      exact congrArg some h
    · rw [List.getElem?_eq_none (by omega), List.getElem?_eq_none (by omega)]
  · intro h
    exact ⟨h.length, get_of_has h env.vnull⟩

/-! ## The methods -/

namespace EvalArray

variable {vnull : V} {a : Varray V} {l : List V}

theorem create_has (values : List V) : (create values).Has values := by
  refine ⟨le_rfl, ?_⟩
  unfold elements create
  simp

/-- The slots after a move to more room. -/
theorem grow_eq (vnull : V) (h : a.Has l) {n : Nat} (hn : l.length ≤ n) :
    OcamlArray.blit a.avalues 0 (make vnull n) 0 a.alength = some (l ++ List.replicate (n - l.length) vnull) := by
  have hlen := h.length
  have hle := h.le
  rw [OcamlArray.blit_eq (by omega) (by simp [make]; omega)]
  simp only [List.take_zero, List.nil_append, List.drop_zero, Nat.zero_add, make, List.drop_replicate, hlen]
  rw [h.take le_rfl, List.take_length]

theorem concat_spec {a2 : Varray V} {l2 : List V} (h : a.Has l) (h2 : a2.Has l2) :
    ∃ a', concat vnull a a2 = some a' ∧ a'.Has (l ++ l2) := by
  have hlen2 := h2.length
  have hle2 := h2.le
  have hlen := h.length
  refine ⟨create (l ++ l2), ?_, create_has _⟩
  unfold concat
  simp only [Option.bind_eq_bind, grow_eq vnull h (Nat.le_add_right_of_le (Nat.le_of_eq hlen.symm)), Option.bind_some]
  rw [OcamlArray.blit_eq (by omega) (by simp; omega)]
  simp only [Option.bind_some, List.drop_zero]
  rw [hlen2, h2.take le_rfl, List.take_length, hlen, List.take_left, List.drop_eq_nil_of_le (by simp)]
  simp

theorem copy_spec (h : a.Has l) : ∃ a', copy a = some a' ∧ a'.Has l := by
  have hlen := h.length
  have hle := h.le
  refine ⟨create l, ?_, create_has _⟩
  unfold copy
  rw [OcamlArray.sub_eq (by omega), List.drop_zero, hlen, h.take le_rfl, List.take_length]
  rfl

theorem indexOf_spec (h : a.Has l) (equals : V → V → Bool) (x : V) (fromIndex : Nat) :
    indexOf vnull a equals x fromIndex = ((l.drop fromIndex).findIdx? (equals x)).map (· + fromIndex) := by
  have hlen := h.length
  induction hn : l.length - fromIndex generalizing fromIndex with
  | zero =>
    unfold indexOf
    rw [if_pos (by omega), List.drop_eq_nil_of_le (by omega)]
    rfl
  | succ n ih =>
    unfold indexOf
    rw [if_neg (by omega), getD_of_has h (by omega), List.drop_eq_getElem_cons (by omega), List.findIdx?_cons,
      List.getD_eq_getElem?_getD, List.getElem?_eq_getElem (by omega), Option.getD_some, ih (fromIndex + 1) (by omega)]
    cases equals x l[fromIndex] with
    | true => simp
    | false =>
      simp only [Bool.false_eq_true, if_false, Option.map_map]
      congr 1
      funext i
      simp only [Function.comp_apply]
      omega

/-- Room for one more element: where there is none, the elements move. -/
theorem room_eq (vnull : V) (l rest : List V) : ∃ r rest', room vnull ⟨l ++ rest, l.length⟩ = some (l ++ r :: rest') := by
  unfold room
  simp only
  split_ifs with hcap
  · have hlen : l.length < (l ++ rest).length * 2 + 5 := by
      rw [List.length_append]
      omega
    have hgrow := grow_eq vnull (has_append rfl : Has ⟨l ++ rest, l.length⟩ l) hlen.le
    obtain ⟨n, hn⟩ := Nat.exists_eq_add_of_lt hlen
    refine ⟨vnull, List.replicate n vnull, hgrow.trans ?_⟩
    rw [← List.replicate_succ, hn]
    congr 3
    omega
  · rcases rest with - | ⟨r, rest⟩
    · simp at hcap
    · exact ⟨r, rest, rfl⟩

theorem push_spec (h : a.Has l) (v : V) :
    ∃ a', push vnull a v = some (a', l.length + 1) ∧ a'.Has (l ++ [v]) := by
  obtain ⟨rest, rfl⟩ := h.eq
  obtain ⟨r, rest', hroom⟩ := room_eq vnull l rest
  refine ⟨⟨(l ++ [v]) ++ rest', l.length + 1⟩, ?_, has_append (by simp)⟩
  unfold push
  simp only [Option.bind_eq_bind, hroom, Option.bind_some]
  rw [OcamlArray.set_parts rfl, List.append_assoc]
  rfl

theorem insert_spec {p s : List V} (h : a.Has (p ++ s)) (x : V) :
    ∃ a', insert vnull a p.length x = some a' ∧ a'.Has (p ++ x :: s) := by
  obtain ⟨rest, rfl⟩ := h.eq
  obtain ⟨r, rest', hroom⟩ := room_eq vnull (p ++ s) rest
  refine ⟨⟨(p ++ x :: s) ++ rest', (p ++ s).length + 1⟩, ?_, has_append (by simp; omega)⟩
  -- the elements from the position on and the slot after them, one place further on
  obtain ⟨e, m, hm⟩ := List.exists_cons_of_ne_nil (show s ++ [r] ≠ [] by simp)
  have hmlen : m.length = s.length := by
    have := congrArg List.length hm
    simp only [List.length_append, List.length_cons, List.length_nil] at this
    omega
  have hblit : OcamlArray.blit (p ++ s ++ r :: rest') p.length (p ++ s ++ r :: rest') (p.length + 1)
      ((p ++ s).length - p.length) = some ((p ++ [e]) ++ (s ++ rest')) := by
    have hsrc : p ++ s ++ r :: rest' = p ++ (s ++ r :: rest') := List.append_assoc ..
    have hdst : p ++ s ++ r :: rest' = (p ++ [e]) ++ (m ++ rest') := by
      rw [List.append_assoc, List.append_cons s, hm]
      simp
    exact OcamlArray.blit_parts hsrc hdst hmlen rfl (by simp) (by simp)
  unfold insert
  simp only [Option.bind_eq_bind, hroom, Option.bind_some, hblit]
  rw [List.append_assoc, List.singleton_append, OcamlArray.set_parts rfl]
  simp

theorem pop_spec (h : a.Has l) : ∃ a', pop vnull a = some (a', l.getLastD vnull) ∧ a'.Has l.dropLast := by
  obtain ⟨rest, rfl⟩ := h.eq
  rcases List.eq_nil_or_concat' l with rfl | ⟨p, x, rfl⟩
  · exact ⟨_, rfl, has_append rfl⟩
  · refine ⟨⟨p ++ vnull :: rest, p.length⟩, ?_, ?_⟩
    · have hget : get vnull ⟨p ++ [x] ++ rest, (p ++ [x]).length⟩ (p.length : Nat) = x := by
        unfold get
        rw [if_neg (by simp <;> omega), Int.toNat_natCast, List.append_assoc, List.getD_append_right _ _ _ _ le_rfl]
        simp
      have hset : OcamlArray.set (p ++ [x] ++ rest) p.length vnull = some (p ++ vnull :: rest) := by
        rw [List.append_assoc]
        exact OcamlArray.set_parts rfl
      unfold pop
      simp only [List.length_append, List.length_singleton, Nat.add_one_ne_zero, if_false, Nat.add_sub_cancel] at hget ⊢
      simp only [hget, Option.bind_eq_bind, hset]
      simp
    · rw [List.dropLast_concat]
      exact has_append rfl

theorem shift_spec (h : a.Has l) : ∃ a', shift vnull a = some (a', l.headD vnull) ∧ a'.Has l.tail := by
  obtain ⟨rest, rfl⟩ := h.eq
  rcases l with - | ⟨x, t⟩
  · exact ⟨_, rfl, has_append rfl⟩
  · have hsrc : x :: t ++ rest = [x] ++ (t ++ rest) := rfl
    have hdst : x :: t ++ rest = [] ++ (x :: t ++ rest) := rfl
    have hblit : ∃ q, OcamlArray.blit (x :: t ++ rest) 1 (x :: t ++ rest) 0 (t.length + 1 - 1) = some ([] ++ (t ++ q)) :=
      OcamlArray.blit_over hsrc hdst (by simp; omega) rfl rfl rfl
    obtain ⟨q, hq⟩ := hblit
    refine ⟨⟨t ++ q, t.length⟩, ?_, has_append rfl⟩
    unfold shift
    simp only [List.length_cons, Nat.add_one_ne_zero, if_false, Option.bind_eq_bind, hq]
    rfl

theorem remove_spec (h : a.Has l) (equals : V → V → Bool) (x : V) :
    ∃ a', remove vnull a equals x = some (a', l.any (equals x)) ∧ a'.Has (l.eraseP (equals x)) := by
  unfold remove
  rw [indexOf_spec h, ← List.findIdx?_isSome, List.eraseP_eq_eraseIdx]
  cases hi : l.findIdx? (equals x) with
  | none => 
    simp only [List.drop_zero, hi]
    exact ⟨a, rfl, h⟩
  | some i =>
    obtain ⟨hlt, -⟩ := List.findIdx?_eq_some_iff_getElem.1 hi
    obtain ⟨rest, rfl⟩ := h.eq
    have hsplit : ∀ n, l ++ rest = l.take n ++ (l.drop n ++ rest) := fun n => by
      rw [← List.append_assoc, List.take_append_drop]
    have hroom : (l.drop (i + 1)).length ≤ (l.drop i ++ rest).length := by
      simp only [List.length_append, List.length_drop]
      omega
    have hblit : ∃ q, OcamlArray.blit (l ++ rest) (i + 1) (l ++ rest) i (l.length - i - 1) =
        some (l.take i ++ (l.drop (i + 1) ++ q)) :=
      OcamlArray.blit_over (hsplit (i + 1)) (hsplit i) hroom (by rw [List.length_take]; omega)
        (by rw [List.length_take]; omega) (by rw [List.length_drop]; omega)
    obtain ⟨q, hq⟩ := hblit
    refine ⟨⟨l.take i ++ l.drop (i + 1) ++ q, l.length - 1⟩, ?_, ?_⟩
    · simp only [List.drop_zero, hi, Option.map_some, Nat.add_zero, Option.bind_eq_bind, hq]
      simp
    · simp only [List.eraseIdx_eq_take_drop_succ]
      exact has_append (by simp; omega)

theorem reverse_spec (h : a.Has l) : ∃ a', reverse a = some a' ∧ a'.Has l.reverse := by
  have hlen := h.length
  obtain ⟨rest, rfl⟩ := h.eq
  refine ⟨⟨l.reverse ++ [], l.length⟩, ?_, has_append (by simp)⟩
  unfold reverse
  rw [OcamlArray.sub_eq (by simp)]
  simp

theorem arraySort_spec (s : ArraySort V) (h : a.Has l) (f : V → V → Int) :
    ∃ a', sort s a f = some a' ∧ a'.Has (s.sort f l) := by
  obtain ⟨rest, rfl⟩ := h.eq
  refine ⟨⟨s.sort f l ++ [], l.length⟩, ?_, has_append (s.perm f l).length_eq.symm⟩
  unfold sort
  rw [OcamlArray.sub_eq (by simp)]
  simp

theorem unshift_spec (h : a.Has l) (v : V) : ∃ a', unshift vnull a v = some a' ∧ a'.Has (v :: l) := by
  obtain ⟨rest, rfl⟩ := h.eq
  have hmoved : ∃ r rest', moved vnull ⟨l ++ rest, l.length⟩ = some ([r] ++ (l ++ rest')) := by
    unfold moved make
    simp only
    split_ifs with hcap
    · have hdst : List.replicate ((l ++ rest).length * 2 + 5) vnull =
          [vnull] ++ List.replicate ((l ++ rest).length * 2 + 4) vnull := rfl
      obtain ⟨q, hq⟩ := OcamlArray.blit_over (List.nil_append _).symm hdst (by simp; omega) rfl rfl (rfl : l.length = _)
      exact ⟨_, _, hq⟩
    · obtain ⟨d, w, hw⟩ := List.exists_cons_of_ne_nil (show l ++ rest ≠ [] by intro h; rw [h] at hcap; simp at hcap)
      have hwlen := congrArg List.length hw
      have hroom : l.length ≤ w.length := by
        simp only [List.length_append, List.length_cons] at hcap hwlen
        omega
      have hdst : l ++ rest = [d] ++ w := hw
      obtain ⟨q, hq⟩ := OcamlArray.blit_over (List.nil_append _).symm hdst hroom rfl rfl rfl
      exact ⟨_, _, hq⟩
  obtain ⟨r, rest', hmoved⟩ := hmoved
  refine ⟨⟨v :: l ++ rest', l.length + 1⟩, ?_, has_append rfl⟩
  unfold unshift
  have hset : OcamlArray.set ([] ++ r :: (l ++ rest')) 0 v = some ([] ++ v :: (l ++ rest')) := OcamlArray.set_parts rfl
  simp only [List.nil_append] at hset
  simp only [Option.bind_eq_bind, hmoved, Option.bind_some, List.singleton_append, hset]
  rfl

theorem splice_spec {p t s : List V} (h : a.Has (p ++ (t ++ s))) :
    ∃ a' b, splice a p.length t.length (p.length + t.length) = some (a', b) ∧ a'.Has (p ++ s) ∧ b.Has t := by
  obtain ⟨rest, rfl⟩ := h.eq
  have hsrc : p ++ (t ++ s) ++ rest = (p ++ t) ++ (s ++ rest) := by simp
  have hdst : p ++ (t ++ s) ++ rest = p ++ (t ++ s ++ rest) := by simp
  have hblit : ∃ q, OcamlArray.blit (p ++ (t ++ s) ++ rest) (p.length + t.length) (p ++ (t ++ s) ++ rest) p.length
      ((p ++ (t ++ s)).length - (p.length + t.length)) = some (p ++ (s ++ q)) :=
    OcamlArray.blit_over hsrc hdst (by simp; omega) (by simp) rfl (by simp; omega)
  obtain ⟨q, hq⟩ := hblit
  refine ⟨⟨p ++ s ++ q, (p ++ (t ++ s)).length - t.length⟩, create t, ?_, has_append (by simp; omega), create_has t⟩
  unfold splice
  simp only [Option.bind_eq_bind]
  rw [OcamlArray.sub_eq (by simp), Option.bind_some, hq]
  simp

theorem slice_spec (h : a.Has l) {pos stop : Nat} (hs : stop ≤ l.length) :
    ∃ a', slice a pos stop = some a' ∧ a'.Has ((l.take stop).drop pos) := by
  obtain ⟨rest, rfl⟩ := h.eq
  refine ⟨create ((l.take stop).drop pos), ?_, create_has _⟩
  unfold slice
  split_ifs with hempty
  · rw [List.drop_eq_nil_of_le]
    · rfl
    · simp only at hempty
      simp
      omega
  · simp only [not_or, not_lt, ge_iff_le, not_le] at hempty
    rw [OcamlArray.sub_eq (by simp; omega)]
    have hsame : ((l ++ rest).drop pos).take (stop - pos) = (l.take stop).drop pos := by
      rw [List.drop_append_of_le_length (by omega), List.take_append_of_le_length (by simp; omega), List.drop_take]
    rw [hsame]
    rfl

theorem eq_replicate_iff_getD {between : List V} {n : Nat} (hn : between.length = n) :
    between = List.replicate n vnull ↔ ∀ k < n, between.getD k vnull = vnull := by
  rw [List.eq_replicate_iff]
  constructor
  · rintro ⟨-, hall⟩ k hk
    rw [List.getD_eq_getElem _ _ (by omega)]
    exact hall _ (List.getElem_mem _)
  · intro hall
    refine ⟨hn, fun x hx => ?_⟩
    obtain ⟨k, hk, rfl⟩ := List.mem_iff_getElem.1 hx
    rw [← List.getD_eq_getElem _ vnull hk]
    exact hall k (by omega)

/-- A write: the new array shows the list's write just in case nothing comes into sight. -/
theorem set_spec (vnull : V) (h : a.Has l) (i : Nat) (v : V) :
    ∃ a', set vnull a i v = some a' ∧ a'.Valid ∧ (a'.elements = ListArray.set vnull l i v ↔
      (i < a.avalues.length → ∀ j, a.alength ≤ j → j < i → a.avalues.getD j vnull = vnull)) := by
  have hlen := h.length
  unfold set ListArray.set
  by_cases hi : i < l.length
  · rw [if_neg (by omega), if_pos hi]
    obtain ⟨rest, rfl⟩ := h.eq
    rw [OcamlArray.set_eq (by simp; omega)]
    have hnew : Has ⟨l.set i v ++ rest, l.length⟩ (l.set i v) := has_append (by simp)
    rw [← List.set_append_left _ _ hi] at hnew
    refine ⟨_, rfl, hnew.1, iff_of_true hnew.2 fun _ j hj hji => ?_⟩
    simp only at hj
    omega
  rw [if_pos (by omega), if_neg hi]
  -- in either case there are slots between the length and the index
  have hcases : ∀ between r rest', between.length = i - l.length →
      roomAt vnull a i = some (l ++ between ++ r :: rest') →
      ∃ a', (do
        return { avalues := ← OcamlArray.set (← roomAt vnull a i) i v, alength := i + 1 } : Option (Varray V)) = some a' ∧
        a'.Has (l ++ between ++ [v]) := by
    intro between r rest' hb hroom
    refine ⟨⟨(l ++ between ++ [v]) ++ rest', i + 1⟩, ?_, has_append (by simp; omega)⟩
    simp only [hroom, Option.bind_eq_bind, Option.bind_some]
    rw [OcamlArray.set_parts (by simp; omega)]
    simp
  obtain ⟨rest, rfl⟩ := h.eq
  by_cases hcap : i < (l ++ rest).length
  · have hrest : rest.drop (i - l.length) ≠ [] := by
      rw [Ne, List.drop_eq_nil_iff]
      simp only [List.length_append] at hcap
      omega
    obtain ⟨r, rest', hr⟩ := List.exists_cons_of_ne_nil hrest
    have hsplit : l ++ rest = l ++ rest.take (i - l.length) ++ r :: rest' := by
      rw [List.append_assoc, ← hr, List.take_append_drop]
    have hb : (rest.take (i - l.length)).length = i - l.length := by
      simp only [List.length_append, List.length_take] at hcap ⊢
      omega
    have hroom : roomAt vnull ⟨l ++ rest, l.length⟩ i = some (l ++ rest.take (i - l.length) ++ r :: rest') := by
      unfold roomAt
      rw [if_neg (by simp only; omega), ← hsplit]
    obtain ⟨a', ha', hhas⟩ := hcases _ _ _ hb hroom
    refine ⟨a', ha', hhas.1, ?_⟩
    rw [hhas.2, List.append_left_inj, List.append_right_inj, eq_replicate_iff_getD hb]
    simp only [hcap, true_imp_iff]
    have hslot : ∀ k < i - l.length, (l ++ rest).getD (l.length + k) vnull = (rest.take (i - l.length)).getD k vnull := by
      intro k hk
      rw [List.getD_append_right _ _ _ _ (Nat.le_add_right ..), Nat.add_sub_cancel_left, List.getD_eq_getElem?_getD,
        List.getD_eq_getElem?_getD, List.getElem?_take_of_lt hk]
    constructor
    · intro hk j hj hji
      obtain ⟨k, rfl⟩ := Nat.exists_eq_add_of_le hj
      rw [hslot k (by omega)]
      exact hk k (by omega)
    · intro hj k hk
      rw [← hslot k hk]
      exact hj (l.length + k) (by omega) (by omega)
  · have hroom : ∃ r rest', roomAt vnull ⟨l ++ rest, l.length⟩ i =
        some (l ++ List.replicate (i - l.length) vnull ++ r :: rest') := by
      have hlt : i < max (i + 5) ((l ++ rest).length * 2 + 5) := lt_max_of_lt_left (by omega)
      obtain ⟨n, hn⟩ := Nat.exists_eq_add_of_lt hlt
      refine ⟨vnull, List.replicate n vnull, ?_⟩
      unfold roomAt
      rw [if_pos (by simp only; omega), grow_eq vnull h (by simp only at hi hlt ⊢; omega), hn, List.append_assoc,
        ← List.replicate_succ, List.replicate_append_replicate]
      congr 3
      omega
    obtain ⟨r, rest', hroom⟩ := hroom
    obtain ⟨a', ha', hhas⟩ := hcases _ _ _ List.length_replicate hroom
    exact ⟨a', ha', hhas.1, iff_of_true hhas.2 fun h => absurd h hcap⟩

/-- A list made longer: the same is a write of null. -/
theorem resize_spec (vnull : V) (h : a.Has l) {len : Int} (hn : 0 ≤ len) :
    ∃ a', resize vnull a len = some a' ∧ a'.Valid ∧ (a'.elements = ListArray.resize vnull l len.toNat ↔
      ((len - 1).toNat < a.avalues.length → ∀ j, a.alength ≤ j → j < (len - 1).toNat →
        a.avalues.getD j vnull = vnull)) := by
  have hlen := h.length
  unfold resize
  by_cases hlt : a.alength < len
  · rw [if_pos hlt]
    obtain ⟨a', ha', hv, hiff⟩ := set_spec vnull h (len - 1).toNat vnull
    refine ⟨a', ha', hv, ?_⟩
    rw [← hiff]
    have hsame : ListArray.set vnull l (len - 1).toNat vnull = ListArray.resize vnull l len.toNat := by
      unfold ListArray.set ListArray.resize
      rw [if_neg (by omega), List.take_of_length_le (by omega), List.append_assoc, ← List.replicate_succ']
      congr 2
      omega
    rw [hsame]
  rw [if_neg hlt]
  obtain ⟨rest, rfl⟩ := h.eq
  simp only at hlt ⊢
  by_cases hgt : (l.length : Int) > len
  · rw [if_pos hgt]
    have hfill : OcamlArray.fill (l ++ rest) len (l.length - len) vnull =
        some (l.take len.toNat ++ (List.replicate (l.length - len).toNat vnull ++ rest)) := by
      unfold OcamlArray.fill
      rw [if_pos (by simp only [List.length_append]; omega), List.take_append_of_le_length (by omega),
        show (len + (l.length - len)).toNat = l.length by omega, List.drop_left, List.append_assoc]
    rw [hfill]
    have hnew : Has ⟨l.take len.toNat ++ (List.replicate (l.length - len).toNat vnull ++ rest), len.toNat⟩
        (l.take len.toNat) := has_append (by simp; omega)
    refine ⟨_, rfl, hnew.1, iff_of_true ?_ fun _ j hj hji => by omega⟩
    rw [hnew.2]
    unfold ListArray.resize
    rw [show len.toNat - l.length = 0 by omega]
    simp
  · rw [if_neg hgt]
    have hself : Has ⟨l ++ rest, l.length⟩ l := has_append rfl
    refine ⟨_, rfl, hself.1, iff_of_true ?_ fun _ j hj hji => by omega⟩
    rw [hself.2]
    unfold ListArray.resize
    rw [show len.toNat = l.length by omega]
    simp

end EvalArray

/-! ## `StdArray` -/

namespace StdArray

variable {vnull : V} {a : Varray V} {l : List V}

theorem position_eq (length : Nat) (pos : Int) : position length pos = ListArray.place length pos := by
  unfold position ListArray.place
  split_ifs <;> simp only <;> split_ifs <;> omega

theorem insert_spec (h : a.Has l) (pos : Int) (x : V) :
    ∃ a', insert vnull a pos x = some a' ∧ a'.Has (ListArray.insert l pos x) := by
  have hlen := h.length
  unfold insert ListArray.insert
  simp only
  split_ifs with hpos
  · obtain ⟨a', ha', hhas⟩ := EvalArray.push_spec h x
    refine ⟨a', by rw [ha']; rfl, ?_⟩
    have hplace : l.length ≤ ListArray.place l.length pos := by
      unfold ListArray.place
      split_ifs <;> omega
    rw [List.take_of_length_le hplace, List.drop_eq_nil_of_le hplace]
    exact hhas
  · rw [position_eq, hlen]
    have hplace : ListArray.place l.length pos ≤ l.length := by
      unfold ListArray.place
      split_ifs <;> omega
    have hparts : a.Has (l.take (ListArray.place l.length pos) ++ l.drop (ListArray.place l.length pos)) := by
      rw [List.take_append_drop]
      exact h
    obtain ⟨a', ha', hhas⟩ := EvalArray.insert_spec hparts x
    rw [List.length_take, min_eq_left hplace] at ha'
    exact ⟨a', ha', hhas⟩

theorem slice_spec (h : a.Has l) (pos : Int) (end' : Option Int) :
    ∃ a', slice a pos end' = some a' ∧ a'.Has (ListArray.slice l pos end') := by
  have hlen := h.length
  unfold slice ListArray.slice
  simp only [position_eq, hlen]
  have hstop : ∃ stop,
      ListArray.place l.length (if end'.getD l.length > l.length then (l.length : Int) else end'.getD l.length) = stop ∧
        stop ≤ l.length ∧ l.take ((end'.map (ListArray.place l.length)).getD l.length) = l.take stop := by
    cases end' with
    | none => exact ⟨l.length, by simp [ListArray.place], le_rfl, rfl⟩
    | some e =>
      simp only [Option.getD_some, Option.map_some]
      split_ifs with he
      · refine ⟨l.length, by simp [ListArray.place], le_rfl, ?_⟩
        rw [List.take_length, List.take_of_length_le]
        unfold ListArray.place
        split_ifs <;> omega
      · refine ⟨_, rfl, ?_, rfl⟩
        unfold ListArray.place
        split_ifs <;> omega
  obtain ⟨stop, hstop, hle, htake⟩ := hstop
  rw [hstop, htake]
  exact EvalArray.slice_spec h hle

theorem splice_spec (h : a.Has l) (pos len : Int) :
    ∃ a' b, splice a pos len = some (a', b) ∧ a'.Has (ListArray.splice l pos len).1 ∧
      b.Has (ListArray.splice l pos len).2 := by
  have hlen := h.length
  unfold splice ListArray.splice
  simp only [position_eq, hlen]
  split_ifs with hout hbig
  · exact ⟨a, _, rfl, h, EvalArray.create_has []⟩
  all_goals
    set place := ListArray.place l.length pos with hplace
    have hle : place ≤ l.length := by
      rw [hplace]
      unfold ListArray.place
      split_ifs <;> omega
  · have hparts : a.Has (l.take place ++ (l.drop place ++ [])) := by
      rw [List.append_nil, List.take_append_drop]
      exact h
    obtain ⟨a', b, hs, ha', hb⟩ := EvalArray.splice_spec hparts
    rw [List.length_take, min_eq_left hle, List.length_drop] at hs
    have hnone : l.drop (place + len.toNat) = [] := List.drop_eq_nil_of_le (by omega)
    have hall : (l.drop place).take len.toNat = l.drop place := List.take_of_length_le (by rw [List.length_drop]; omega)
    rw [hnone, hall]
    exact ⟨a', b, hs, ha', hb⟩
  · have hparts : a.Has (l.take place ++ ((l.drop place).take len.toNat ++ l.drop (place + len.toNat))) := by
      rw [← List.drop_drop, List.take_append_drop, List.take_append_drop]
      exact h
    obtain ⟨a', b, hs, ha', hb⟩ := EvalArray.splice_spec hparts
    rw [List.length_take, min_eq_left hle, List.length_take, List.length_drop, min_eq_left (by omega)] at hs
    exact ⟨a', b, hs, ha', hb⟩

end StdArray

/-! ## Programs -/

/-- One operation on arrays and on lists: both throw, or both give the same, and the arrays go on having the elements
of the lists just in case `P` holds. -/
def StepsTo (r : Option (List (Varray V) × Output V)) (r' : Option (List (List V) × Output V)) (P : Prop) : Prop :=
  r = none ∧ r' = none ∧ P ∨ ∃ heap' lists' out, r = some (heap', out) ∧ r' = some (lists', out) ∧
    (∀ x ∈ heap', x.Valid) ∧ (List.Forall₂ Has heap' lists' ↔ P)

theorem valid_of_has {heap : List (Varray V)} {lists : List (List V)} (h : List.Forall₂ Has heap lists) :
    ∀ x ∈ heap, x.Valid := by
  induction h with
  | nil => exact fun _ hx => (nomatch hx)
  | cons hx _ ih => exact List.forall_mem_cons.2 ⟨hx.1, ih⟩

theorem StepsTo.has {heap' : List (Varray V)} {lists' : List (List V)} (out : Output V)
    (h : List.Forall₂ Has heap' lists') {P : Prop} (hP : P) : StepsTo (some (heap', out)) (some (lists', out)) P :=
  .inr ⟨_, _, out, rfl, rfl, valid_of_has h, iff_of_true h hP⟩

variable {heap : List (Varray V)} {lists : List (List V)}

/-- The same place of arrays and lists. -/
theorem getElem?_has (h : List.Forall₂ Has heap lists) (a : Nat) :
    heap[a]? = none ∧ lists[a]? = none ∨ ∃ x l, heap[a]? = some x ∧ lists[a]? = some l ∧ x.Has l := by
  induction h generalizing a with
  | nil => exact .inl ⟨rfl, rfl⟩
  | cons hx _ ih =>
    cases a with
    | zero => exact .inr ⟨_, _, rfl, rfl, hx⟩
    | succ a => exact ih a

theorem forall₂_set (h : List.Forall₂ Has heap lists) {a : Nat} {x y : Varray V} (hx : heap[a]? = some x)
    (l : List V) : List.Forall₂ Has (heap.set a y) (lists.set a l) ↔ y.Has l := by
  induction h generalizing a with
  | nil => cases hx
  | cons hz hrest ih =>
    cases a with
    | zero => exact ⟨fun h => (List.forall₂_cons.1 h).1, fun h => .cons h hrest⟩
    | succ a => exact ⟨fun h => (ih hx).1 (List.forall₂_cons.1 h).2, fun h => .cons hz ((ih hx).2 h)⟩

/-- Work on one array. -/
theorem update_spec (h : List.Forall₂ Has heap lists) (a : Nat) {f : Varray V → Option (Varray V × Output V)}
    {g : List V → Option (List V × Output V)} {P : Varray V → Prop}
    (hfg : ∀ x l, x.Has l → ∃ x' l' out, f x = some (x', out) ∧ g l = some (l', out) ∧ x'.Valid ∧
      (x'.elements = l' ↔ P x)) :
    StepsTo (update heap a f) (update lists a g) (∀ x, heap[a]? = some x → P x) := by
  unfold update
  rcases getElem?_has h a with ⟨hx, hl⟩ | ⟨x, l, hx, hl, hhas⟩
  · rw [hx, hl]
    exact .inl ⟨rfl, rfl, fun _ h => (nomatch h)⟩
  · obtain ⟨x', l', out, hf, hg, hv, hiff⟩ := hfg x l hhas
    rw [hx, hl]
    simp only [Option.bind_eq_bind, Option.bind_some, hf, hg]
    refine .inr ⟨_, _, out, rfl, rfl, fun y hy => ?_, ?_⟩
    · rcases List.mem_or_eq_of_mem_set hy with hy | rfl
      · exact valid_of_has h y hy
      · exact hv
    · rw [forall₂_set h hx]
      constructor
      · rintro ⟨-, he⟩ y hy
        obtain rfl := Option.some.inj hy
        exact hiff.1 he
      · intro hP
        exact ⟨hv, hiff.2 (hP x rfl)⟩

/-- Work on one array that is always right. -/
theorem update_has (h : List.Forall₂ Has heap lists) (a : Nat) {f : Varray V → Option (Varray V × Output V)}
    {g : List V → Option (List V × Output V)}
    (hfg : ∀ x l, x.Has l → ∃ x' l' out, f x = some (x', out) ∧ g l = some (l', out) ∧ x'.Has l') :
    StepsTo (update heap a f) (update lists a g) True := by
  have := update_spec h a (P := fun _ => True) fun x l hx => by
    obtain ⟨x', l', out, hf, hg, hhas⟩ := hfg x l hx
    exact ⟨x', l', out, hf, hg, hhas.1, iff_of_true hhas.2 trivial⟩
  simpa using this

theorem alloc_has (h : List.Forall₂ Has heap lists) {x : Varray V} {l : List V} (hx : x.Has l) :
    StepsTo (some (alloc heap x)) (some (alloc lists l)) True := by
  have hlen := h.length_eq
  unfold alloc
  rw [hlen]
  exact .has _ (List.rel_append h (.cons hx .nil)) trivial

/-- A new array made from one that is there. -/
theorem alloc_of (h : List.Forall₂ Has heap lists) (a : Nat) {f : Varray V → Option (Varray V)} {g : List V → List V}
    (hfg : ∀ x l, x.Has l → ∃ x', f x = some x' ∧ x'.Has (g l)) :
    StepsTo (do return alloc heap (← f (← heap[a]?))) (do return alloc lists (g (← lists[a]?))) True := by
  rcases getElem?_has h a with ⟨hx, hl⟩ | ⟨x, l, hx, hl, hhas⟩
  · rw [hx, hl]
    exact .inl ⟨rfl, rfl, trivial⟩
  · obtain ⟨x', hf, hhas'⟩ := hfg x l hhas
    rw [hx, hl]
    simp only [Option.bind_eq_bind, Option.bind_some, hf]
    exact alloc_has h hhas'

theorem splice_step (h : List.Forall₂ Has heap lists) (a : Nat) (pos len : Int) :
    StepsTo ((update heap a fun x => StdArray.splice x pos len).map fun (heap, y) => alloc heap y)
      ((update lists a fun l => some (ListArray.splice l pos len)).map fun (lists, taken) => alloc lists taken) True := by
  unfold update
  rcases getElem?_has h a with ⟨hx, hl⟩ | ⟨x, l, hx, hl, hhas⟩
  · rw [hx, hl]
    exact .inl ⟨rfl, rfl, trivial⟩
  · obtain ⟨x', y, hs, hx', hy⟩ := StdArray.splice_spec hhas pos len
    rw [hx, hl]
    simp only [Option.bind_eq_bind, Option.bind_some, hs]
    exact alloc_has ((forall₂_set h hx _).2 hx') hy

/-- One operation: it is right just in case it is clean. -/
theorem step_spec (env : Env V) (h : List.Forall₂ Has heap lists) (op : Op V) :
    StepsTo (step env heap op) (listStep env lists op) (Clean env heap op) := by
  cases op with
  | literal vs => exact alloc_has h (EvalArray.create_has vs)
  | push a v =>
    refine update_has h a fun x l hx => ?_
    obtain ⟨x', he, hx'⟩ := EvalArray.push_spec hx v
    exact ⟨x', _, _, by rw [he]; rfl, rfl, hx'⟩
  | pop a =>
    refine update_has h a fun x l hx => ?_
    obtain ⟨x', he, hx'⟩ := EvalArray.pop_spec hx
    exact ⟨x', _, _, by rw [he]; rfl, rfl, hx'⟩
  | shift a =>
    refine update_has h a fun x l hx => ?_
    obtain ⟨x', he, hx'⟩ := EvalArray.shift_spec hx
    exact ⟨x', _, _, by rw [he]; rfl, rfl, hx'⟩
  | unshift a v =>
    refine update_has h a fun x l hx => ?_
    obtain ⟨x', he, hx'⟩ := EvalArray.unshift_spec hx v
    exact ⟨x', _, _, by rw [he]; rfl, rfl, hx'⟩
  | insert a pos v =>
    refine update_has h a fun x l hx => ?_
    obtain ⟨x', he, hx'⟩ := StdArray.insert_spec hx pos v
    exact ⟨x', _, _, by rw [he]; rfl, rfl, hx'⟩
  | remove a v =>
    refine update_has h a fun x l hx => ?_
    obtain ⟨x', he, hx'⟩ := EvalArray.remove_spec hx env.equals v
    exact ⟨x', _, _, by rw [he]; rfl, rfl, hx'⟩
  | splice a pos len => exact splice_step h a pos len
  | slice a pos end' => exact alloc_of h a fun x l hx => StdArray.slice_spec hx pos end'
  | concat a b =>
    simp only [step, listStep]
    rcases getElem?_has h a with ⟨hx, hl⟩ | ⟨x, l, hx, hl, hhas⟩
    · rw [hx, hl]
      exact .inl ⟨rfl, rfl, trivial⟩
    rw [hx, hl]
    exact alloc_of h b fun y l' hy => EvalArray.concat_spec hhas hy
  | reverse a =>
    refine update_has h a fun x l hx => ?_
    obtain ⟨x', he, hx'⟩ := EvalArray.reverse_spec hx
    exact ⟨x', _, _, by rw [he]; rfl, rfl, hx'⟩
  | resize a len =>
    simp only [step, listStep]
    by_cases hn : len < 0
    · rw [if_pos hn]
      refine .inl ⟨?_, rfl, fun x _ _ j _ hj => ?_⟩
      · have hresize : ∀ x : Varray V, EvalArray.resize env.vnull x len = none := fun x => by
          unfold EvalArray.resize OcamlArray.fill
          rw [if_neg (by omega), if_pos (by omega), if_neg (by omega)]
          rfl
        unfold update
        cases heap[a]? with
        | none => rfl
        | some x => simp [hresize]
      · omega
    · rw [if_neg hn]
      refine update_spec h a fun x l hx => ?_
      obtain ⟨x', he, hv, hiff⟩ := EvalArray.resize_spec env.vnull hx (not_lt.1 hn)
      exact ⟨x', _, _, by rw [he]; rfl, rfl, hv, hiff⟩
  | set a i v =>
    simp only [step, listStep]
    by_cases hn : i < 0
    · rw [if_pos hn, if_pos hn]
      refine .inl ⟨rfl, rfl, fun x _ _ j _ hj => ?_⟩
      omega
    · rw [if_neg hn, if_neg hn]
      refine update_spec h a fun x l hx => ?_
      obtain ⟨x', he, hv, hiff⟩ := EvalArray.set_spec env.vnull hx i.toNat v
      exact ⟨x', _, _, by rw [he]; rfl, rfl, hv, hiff⟩
  | get a i =>
    simp only [step, listStep]
    rcases getElem?_has h a with ⟨hx, hl⟩ | ⟨x, l, hx, hl, hhas⟩
    · rw [hx, hl]
      exact .inl ⟨rfl, rfl, trivial⟩
    · rw [hx, hl]
      simp only [Option.bind_eq_bind, Option.bind_some, get_of_has hhas]
      exact .has _ h trivial
  | sort a f =>
    refine update_has h a fun x l hx => ?_
    obtain ⟨x', he, hx'⟩ := EvalArray.arraySort_spec env.arraySort hx f
    exact ⟨x', _, _, by rw [he]; rfl, rfl, hx'⟩
  | copy a => exact alloc_of h a fun x l hx => EvalArray.copy_spec hx

theorem shows_of_has (env : Env V) (h : List.Forall₂ Has heap lists) : List.Forall₂ (Shows env) heap lists :=
  h.imp fun _ _ hx => (shows_iff hx.1 _).2 hx

theorem has_of_shows (hv : ∀ x ∈ heap, x.Valid) (h : List.Forall₂ (Shows env) heap lists) :
    List.Forall₂ Has heap lists := by
  induction h with
  | nil => exact .nil
  | cons hx _ ih =>
    obtain ⟨h1, h2⟩ := List.forall_mem_cons.1 hv
    exact .cons ((shows_iff h1 _).1 hx) (ih h2)

theorem Agrees.shows {ops : List (Op V)} (h : Agrees env ops heap lists) : List.Forall₂ (Shows env) heap lists := by
  cases ops with
  | nil => exact h
  | cons op ops => exact h.1

theorem agrees_iff : ∀ (ops : List (Op V)) (heap : List (Varray V)) (lists : List (List V)),
    List.Forall₂ Has heap lists → (Agrees env ops heap lists ↔ CleanRun env ops heap)
  | [], heap, lists, h => iff_of_true (shows_of_has env h) trivial
  | op :: ops, heap, lists, h => by
    unfold Agrees CleanRun
    have hshows := shows_of_has env h
    rcases step_spec env h op with ⟨hs, hl, hclean⟩ | ⟨heap', lists', out, hs, hl, hv, hiff⟩
    · rw [hs, hl]
      exact iff_of_true ⟨hshows, trivial⟩ ⟨hclean, trivial⟩
    · rw [hs, hl]
      by_cases hclean : Clean env heap op
      · have ih := agrees_iff ops heap' lists' (hiff.2 hclean)
        simp only [hshows, hclean, true_and]
        exact ih
      · constructor
        · rintro ⟨-, -, h'⟩
          exact absurd (hiff.1 (has_of_shows hv h'.shows)) hclean
        · rintro ⟨h', -⟩
          exact absurd h' hclean

/-- A program sees the same on arrays as on lists just in case all its operations are clean. -/
theorem agrees_iff_cleanRun (env : Env V) (ops : List (Op V)) : Agrees env ops [] [] ↔ CleanRun env ops [] :=
  agrees_iff ops [] [] .nil

/-- `var a = [1, 2]; a.push(3); a.shift(); a[3] = 4;` -/
def shifted : List (Op (Option Nat)) := [.literal [some 1, some 2], .push 0 (some 3), .shift 0, .set 0 3 (some 4)]

/-- An interpreter with numbers and null, and a sort that leaves everything where it is. -/
def numbers : Env (Option Nat) where
  vnull := none
  equals a b := a == b
  arraySort := { sort := fun _ values => values, perm := fun _ _ => .refl _ }

/-- After it `a[2]` is the 3 that has moved to `a[1]`, and not null. -/
theorem removed_element_visible : ¬ Agrees numbers shifted [] [] := by
  intro h
  obtain ⟨-, -, -, -, -, -, -, -, hshows⟩ := h
  have hget := (List.forall₂_cons.1 hshows).1.2 2
  exact absurd hget (by decide)

end EvilHaxe.Eval
