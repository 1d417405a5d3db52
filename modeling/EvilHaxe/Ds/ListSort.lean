/-
`haxe.ds.ListSort`. The heap holds the links of the nodes, and following those of `null` gets no further. `sort` and
`sortSingleLinked` differ in the links back only; their loops run on fuel, and what they count are nodes.
-/
import EvilHaxe.Lib.Links
import EvilHaxe.Lib.StableSort

namespace EvilHaxe.Ds.ListSort

structure Heap (N : Type) where
  next : N → Option N
  prev : N → Option N

variable {N : Type} [DecidableEq N]

def Heap.setNext (h : Heap N) (x : N) (v : Option N) : Heap N := { h with next := Function.update h.next x v }

def Heap.setPrev (h : Heap N) (x : N) (v : Option N) : Heap N := { h with prev := Function.update h.prev x v }

/-- The loop that steps `q` on by `insize` nodes and counts them in `psize`. -/
def stepOn (h : Heap N) : Nat → Nat → Option N → Option (Nat × Option N)
  | 0, psize, q => some (psize, q)
  | i + 1, psize, q => do
    let x ← q
    match h.next x with
    | none => some (psize + 1, none)
    | some y => stepOn h i (psize + 1) (some y)

/-- The node `e` is put behind `tail`; with links back if the list has them. -/
def link (doubly : Bool) (h : Heap N) (list tail : Option N) (e : N) : Heap N × Option N × Option N :=
  let (h, list) := match tail with
    | some t => (h.setNext t (some e), list)
    | none => (h, some e)
  let h := if doubly then h.setPrev e tail else h
  (h, list, some e)

/-- Whether the next node is taken from `p`. -/
def fromP (cmp : N → N → Int) (p q : Option N) (qsize : Nat) : Option Bool :=
  if qsize = 0 ∨ q = none then some true
  else do
    let x ← p
    let y ← q
    some (decide (cmp x y ≤ 0))

def merge (doubly : Bool) (cmp : N → N → Int) :
    Nat → Heap N → Option N → Option N → Nat → Nat → Option N → Option N → Option (Heap N × Option N × Option N × Option N)
  | 0, _, _, _, _, _, _, _ => none
  | fuel + 1, h, p, q, psize, qsize, list, tail => do
    if psize > 0 ∨ (qsize > 0 ∧ q ≠ none) then
      if psize = 0 then
        let e ← q
        let (h', list, tail) := link doubly h list tail e
        merge doubly cmp fuel h' p (h.next e) psize (qsize - 1) list tail
      else if ← fromP cmp p q qsize then
        let e ← p
        let (h', list, tail) := link doubly h list tail e
        merge doubly cmp fuel h' (h.next e) q (psize - 1) qsize list tail
      else
        let e ← q
        let (h', list, tail) := link doubly h list tail e
        merge doubly cmp fuel h' p (h.next e) psize (qsize - 1) list tail
    else some (h, q, list, tail)

/-- One pass over the list: neighbouring runs of `insize` nodes are merged. -/
def pass (doubly : Bool) (cmp : N → N → Int) (insize : Nat) :
    Nat → Heap N → Option N → Option N → Option N → Nat → Option (Heap N × Option N × Option N × Nat)
  | 0, _, _, _, _, _ => none
  | fuel + 1, h, p, list, tail, nmerges =>
    if p = none then some (h, list, tail, nmerges)
    else do
      let (psize, q) ← stepOn h insize 0 p
      let (h, q, list, tail) ← merge doubly cmp fuel h p q psize insize list tail
      pass doubly cmp insize fuel h q list tail (nmerges + 1)

def passes (doubly : Bool) (cmp : N → N → Int) : Nat → Heap N → Option N → Nat → Option (Heap N × Option N × Option N)
  | 0, _, _, _ => none
  | fuel + 1, h, list, insize => do
    let (h, list, tail, nmerges) ← pass doubly cmp insize fuel h list none none 0
    let t ← tail
    let h := h.setNext t none
    if nmerges ≤ 1 then some (h, list, tail) else passes doubly cmp fuel h list (insize * 2)

def sort (fuel : Nat) (h : Heap N) (list : Option N) (cmp : N → N → Int) : Option (Heap N × Option N) :=
  if list = none then some (h, none)
  else do
    let (h, list, tail) ← passes true cmp fuel h list 1
    let x ← list
    some (h.setPrev x tail, list)

def sortSingleLinked (fuel : Nat) (h : Heap N) (list : Option N) (cmp : N → N → Int) : Option (Heap N × Option N) :=
  if list = none then some (h, none)
  else do
    let (h, list, _) ← passes false cmp fuel h list 1
    some (h, list)

end EvilHaxe.Ds.ListSort

/-! `ListSort` merges runs of nodes, twice as long in each pass, while the list that it walks is taken apart behind it. -/

namespace EvilHaxe.Ds.ListSort

open Lib

variable {N : Type} [DecidableEq N] {cmp : N → N → Int} {doubly : Bool}

/-! ## The list that is built -/

/-- The nodes `out` are linked, from `list` to `tail`. -/
structure Built (doubly : Bool) (h : Heap N) (list tail : Option N) (out : List N) : Prop where
  list_eq : list = out.head?
  tail_eq : tail = out.getLast?
  linked : ∃ r, Linked h.next list out r
  backed : doubly = true → Backed h.prev none out

omit [DecidableEq N] in
theorem Built.nil (h : Heap N) : Built doubly h none none [] := ⟨rfl, rfl, ⟨none, rfl⟩, fun _ => trivial⟩

/-- A node is put behind the list. The links that lead on from other nodes stay. -/
theorem link_spec {h : Heap N} {list tail : Option N} {out : List N} {e : N} (hb : Built doubly h list tail out)
    (hnodup : (out ++ [e]).Nodup) :
    Built doubly (link doubly h list tail e).1 (link doubly h list tail e).2.1 (link doubly h list tail e).2.2 (out ++ [e]) ∧
      ∀ x ∉ out, (link doubly h list tail e).1.next x = h.next x := by
  obtain ⟨rfl, rfl, ⟨r, hlinked⟩, hbacked⟩ := hb
  rw [List.nodup_append] at hnodup
  obtain ⟨hout, -, hdisjoint⟩ := hnodup
  have he : e ∉ out := fun he => hdisjoint e he e (List.mem_singleton.2 rfl) rfl
  have hprev : ∀ prev : N → Option N, Backed prev none out → Backed (Function.update prev e out.getLast?) none (out ++ [e]) := by
    intro prev hp
    refine backed_append.2 ⟨hp.congr fun x hx => Function.update_of_ne (by rintro rfl; exact he hx) _ _, ?_, trivial⟩
    rw [Function.update_self, Option.or_none]
  rcases List.eq_nil_or_concat out with rfl | ⟨out, t, rfl⟩
  · cases doubly with
    | false => exact ⟨⟨rfl, rfl, ⟨h.next e, rfl, rfl⟩, nofun⟩, fun x _ => rfl⟩
    | true => exact ⟨⟨rfl, rfl, ⟨h.next e, rfl, rfl⟩, fun _ => hprev _ trivial⟩, fun x _ => rfl⟩
  · rw [List.concat_eq_append] at *
    have hlast : (out ++ [t]).getLast? = some t := List.getLast?_concat
    have ht : t ∉ out := fun ht => (List.nodup_append.1 hout).2.2 t ht t (List.mem_singleton.2 rfl) rfl
    have hnext : Linked (Function.update h.next t (some e)) (out ++ [t]).head? (out ++ [t] ++ [e]) (h.next e) := by
      refine linked_append.2 ⟨some e, hlinked.update ht _, rfl, ?_⟩
      exact Function.update_of_ne (by rintro rfl; exact he (by simp)) _ _
    have hhead : (out ++ [t] ++ [e]).head? = (out ++ [t]).head? := by cases out <;> rfl
    have hother : ∀ x ∉ out ++ [t], Function.update h.next t (some e) x = h.next x := fun x hx =>
      Function.update_of_ne (by rintro rfl; exact hx (by simp)) _ _
    cases doubly with
    | false =>
      rw [hlast]
      exact ⟨⟨hhead.symm, List.getLast?_concat.symm, ⟨_, hnext⟩, nofun⟩, hother⟩
    | true =>
      have hp := hprev h.prev (hbacked rfl)
      rw [hlast] at hp ⊢
      exact ⟨⟨hhead.symm, List.getLast?_concat.symm, ⟨_, hnext⟩, fun _ => hp⟩, hother⟩

/-! ## Merging two runs -/

omit [DecidableEq N] in
theorem stepOn_spec {h : Heap N} {xs : List N} {p : Option N} {n psize : Nat} (hp : Linked h.next p xs none) (hxs : n = 0 ∨ xs ≠ []) :
    ∃ q, stepOn h n psize p = some (psize + (xs.take n).length, q) ∧ Linked h.next q (xs.drop n) none := by
  induction n generalizing xs p psize with
  | zero => exact ⟨p, rfl, hp⟩
  | succ n ih =>
    cases xs with
    | nil => simp at hxs
    | cons x xs =>
      obtain ⟨rfl, hlinked⟩ := hp
      rw [stepOn, Option.bind_eq_bind, Option.bind_some]
      cases hnext : h.next x with
      | none =>
        rw [hnext] at hlinked
        obtain rfl : xs = [] := hlinked.unique (show Linked h.next none [] none from rfl)
        exact ⟨none, by simp, by simp [Linked]⟩
      | some y =>
        have hne : xs ≠ [] := by
          rintro rfl
          exact absurd (hnext.symm.trans hlinked) (by simp)
        rw [hnext] at hlinked
        obtain ⟨q, hq, hrest⟩ := @ih xs (some y) (psize + 1) hlinked (.inr hne)
        refine ⟨q, ?_, by simpa using hrest⟩
        simp only [hq, List.take_succ_cons, List.length_cons, Option.some.injEq, Prod.mk.injEq, and_true]
        omega

def atMost (cmp : N → N → Int) (x y : N) : Bool := decide (AtMost cmp x y)

/-- The runs `ps` and `qs` are merged behind what is built, and `q` is at the end of the second one. -/
theorem merge_spec {fuel : Nat} {h : Heap N} {p q list tail : Option N} {psize qsize : Nat} {out ps qs rest : List N}
    (hb : Built doubly h list tail out) (hp : ∃ r, Linked h.next p ps r) (hq : Linked h.next q (qs ++ rest) none)
    (hpsize : psize = ps.length) (hqsize : qs.length ≤ qsize) (hrest : qs.length < qsize → rest = [])
    (hnodup : (out ++ (ps ++ (qs ++ rest))).Nodup) (hfuel : ps.length + qs.length < fuel) :
    ∃ h' list' tail' q', merge doubly cmp fuel h p q psize qsize list tail = some (h', q', list', tail') ∧
      Built doubly h' list' tail' (out ++ ps.merge qs (atMost cmp)) ∧ Linked h'.next q' rest none := by
  induction fuel generalizing h p q list tail psize qsize out ps qs with
  | zero => omega
  | succ fuel ih =>
    obtain ⟨r, hp⟩ := hp
    -- taking a node leaves the links of those that are not yet taken
    have htake : ∀ e others, (out ++ e :: others).Nodup →
        Built doubly (link doubly h list tail e).1 (link doubly h list tail e).2.1 (link doubly h list tail e).2.2 (out ++ [e]) ∧
          ∀ x ∈ others, (link doubly h list tail e).1.next x = h.next x := by
      intro e others hno
      have hno' : (out ++ [e] ++ others).Nodup := by simpa using hno
      obtain ⟨hbuilt, hframe⟩ := link_spec hb hno'.of_append_left
      refine ⟨hbuilt, fun x hx => hframe x fun hxo => ?_⟩
      exact (List.nodup_append.1 hno).2.2 x hxo x (List.mem_cons_of_mem e hx) rfl
    subst hpsize
    rw [merge]
    cases ps with
    | nil =>
      cases qs with
      | nil =>
        have hend : ¬ (([] : List N).length > 0 ∨ (qsize > 0 ∧ q ≠ none)) := by
          rintro (h0 | ⟨hpos, hne⟩)
          · exact absurd h0 (by simp)
          · obtain rfl := hrest hpos
            exact hne hq
        rw [if_neg hend]
        exact ⟨h, list, tail, q, rfl, by simpa using hb, hq⟩
      | cons y qs =>
        obtain ⟨rfl, hq⟩ := hq
        rw [List.length_cons] at hqsize hrest hfuel
        rw [if_pos (.inr ⟨by omega, by simp⟩), if_pos List.length_nil]
        simp only [Option.bind_eq_bind, Option.bind_some]
        obtain ⟨hbuilt, hframe⟩ := htake y (qs ++ rest) hnodup
        have hp' : ∃ r, Linked (link doubly h list tail y).1.next p [] r := ⟨p, rfl⟩
        obtain ⟨h', list', tail', q', hmerge, hb', hq'⟩ := ih hbuilt hp' (hq.congr hframe) rfl (show qs.length ≤ qsize - 1 by omega)
          (fun hlt => hrest (by omega)) (by simpa using hnodup) (by simpa using hfuel)
        exact ⟨h', list', tail', q', hmerge, by simpa using hb', hq'⟩
    | cons x ps =>
      obtain ⟨rfl, hp⟩ := hp
      rw [List.length_cons] at hfuel
      rw [if_pos (.inl (by simp)), if_neg (by simp)]
      have hx := htake x (ps ++ (qs ++ rest)) hnodup
      cases qs with
      | nil =>
        have hfrom : fromP cmp (some x) q qsize = some true := by
          refine if_pos ?_
          rcases Nat.eq_zero_or_pos qsize with h0 | hpos
          · exact .inl h0
          · obtain rfl := hrest hpos
            exact .inr hq
        simp only [hfrom, Option.bind_eq_bind, Option.bind_some]
        obtain ⟨h', list', tail', q', hmerge, hb', hq'⟩ := ih hx.1
          ⟨r, hp.congr fun z hz => hx.2 z (List.mem_append_left _ hz)⟩
          (hq.congr fun z hz => hx.2 z (List.mem_append_right ps hz)) rfl hqsize hrest (by simpa using hnodup) (by omega)
        exact ⟨h', list', tail', q', hmerge, by simpa using hb', hq'⟩
      | cons y qs =>
        have hq0 := hq
        obtain ⟨rfl, hq⟩ := hq
        rw [List.length_cons] at hqsize hrest hfuel
        have hfrom : fromP cmp (some x) (some y) qsize = some (atMost cmp x y) := by
          refine if_neg ?_
          rintro (h0 | h0)
          · omega
          · cases h0
        simp only [hfrom, Option.bind_eq_bind, Option.bind_some]
        by_cases hxy : atMost cmp x y = true
        · rw [if_pos hxy, List.cons_merge_cons_pos _ _ _ hxy]
          obtain ⟨h', list', tail', q', hmerge, hb', hq'⟩ := ih hx.1
            ⟨r, hp.congr fun z hz => hx.2 z (List.mem_append_left _ hz)⟩
            (hq0.congr fun z hz => hx.2 z (List.mem_append_right ps hz)) rfl hqsize hrest
            (by simpa using hnodup) (by rw [List.length_cons]; omega)
          refine ⟨h', list', tail', q', hmerge, ?_, hq'⟩
          rwa [List.append_assoc] at hb'
        · rw [if_neg hxy, List.cons_merge_cons_neg _ _ _ hxy]
          have hperm : (out ++ y :: (x :: ps ++ (qs ++ rest))).Nodup :=
            (List.Perm.append_left out List.perm_middle).nodup_iff.1 hnodup
          obtain ⟨hbuilt, hframe⟩ := htake y (x :: ps ++ (qs ++ rest)) hperm
          obtain ⟨h', list', tail', q', hmerge, hb', hq'⟩ := ih hbuilt
            ⟨r, (show Linked h.next (some x) (x :: ps) r from ⟨rfl, hp⟩).congr fun z hz => hframe z (List.mem_append_left _ hz)⟩
            (hq.congr fun z hz => hframe z (List.mem_append_right _ hz)) rfl (show qs.length ≤ qsize - 1 by omega)
            (fun hlt => hrest (by omega))
            (by simpa using hperm) (by rw [List.length_cons]; omega)
          refine ⟨h', list', tail', q', hmerge, ?_, hq'⟩
          rwa [List.append_assoc] at hb'

/-! ## Passes -/

/-- The runs of `k` elements, one behind the other, are sorted each. -/
inductive Runs (le : N → N → Prop) (k : Nat) : List N → Prop
  | last {xs : List N} (hlen : xs.length ≤ k) (hxs : xs.Pairwise le) : Runs le k xs
  | cons {xs ys : List N} (hlen : xs.length = k) (hxs : xs.Pairwise le) (hys : Runs le k ys) : Runs le k (xs ++ ys)

section

omit [DecidableEq N]

variable {le : N → N → Prop} {k : Nat} {xs : List N}

theorem Runs.take (h : Runs le k xs) : (xs.take k).Pairwise le := by
  cases h with
  | last hlen hxs => rwa [List.take_of_length_le hlen]
  | cons hlen hxs hys => rwa [List.take_left' hlen]

theorem Runs.drop (h : Runs le k xs) : Runs le k (xs.drop k) := by
  cases h with
  | last hlen hxs =>
    rw [List.drop_eq_nil_of_le hlen]
    exact .last (Nat.zero_le k) .nil
  | cons hlen hxs hys => rwa [List.drop_left' hlen]

theorem runs_one (xs : List N) : Runs le 1 xs := by
  induction xs with
  | nil => exact .last (Nat.zero_le 1) .nil
  | cons x xs ih => exact @Runs.cons _ le 1 [x] xs rfl (List.pairwise_singleton le x) ih

end

/-- A pass merges each two neighbouring runs, and counts the pairs of them. -/
theorem pass_spec (hcmp : Comparison cmp) {insize fuel : Nat} {h : Heap N} {p list tail : Option N} {nmerges : Nat} {out xs : List N}
    (hpos : 0 < insize) (hb : Built doubly h list tail out) (hp : Linked h.next p xs none) (hruns : Runs (AtMost cmp) insize xs)
    (hnodup : (out ++ xs).Nodup) (hfuel : xs.length + 1 < fuel) :
    ∃ h' list' tail' c ys, pass doubly cmp insize fuel h p list tail nmerges = some (h', list', tail', nmerges + c) ∧
      Built doubly h' list' tail' (out ++ ys) ∧ SameOrder (AtMost cmp) xs ys ∧ Runs (AtMost cmp) (insize * 2) ys ∧
      xs.length ≤ c * (insize * 2) ∧ (xs = [] → c = 0) ∧ (xs.length ≤ insize * 2 → c ≤ 1) := by
  induction fuel generalizing h p list tail nmerges out xs with
  | zero => omega
  | succ fuel ih =>
    rw [pass]
    by_cases hxs : xs = []
    · subst hxs
      rw [if_pos (show p = none from hp)]
      exact ⟨h, list, tail, 0, [], rfl, by simpa using hb, .refl [], .last (Nat.zero_le _) .nil, Nat.zero_le _, fun _ => rfl,
        fun _ => Nat.zero_le 1⟩
    · have hne : p ≠ none := by
        rintro rfl
        exact hxs (hp.unique (show Linked h.next none [] none from rfl))
      rw [if_neg hne]
      obtain ⟨q, hstep, hq⟩ := @stepOn_spec _ h xs p insize 0 hp (.inr hxs)
      generalize hps : xs.take insize = ps at hstep
      generalize hqs : (xs.drop insize).take insize = qs
      generalize hrest : (xs.drop insize).drop insize = rest
      have hsplit : xs.drop insize = qs ++ rest := by rw [← hqs, ← hrest, List.take_append_drop]
      have hall : xs = ps ++ (qs ++ rest) := by rw [← hsplit, ← hps, List.take_append_drop]
      have hlen := congrArg List.length hall
      rw [List.length_append, List.length_append] at hlen
      have hxlen : 0 < xs.length := List.length_pos_of_ne_nil hxs
      have hplen : ps.length = min insize xs.length := by rw [← hps, List.length_take]
      have hqlen : qs.length = min insize (xs.drop insize).length := by rw [← hqs, List.length_take]
      rw [hsplit, List.length_append] at hqlen
      have hpsorted : ps.Pairwise (AtMost cmp) := hps ▸ hruns.take
      have hqsorted : qs.Pairwise (AtMost cmp) := hqs ▸ hruns.drop.take
      have hp' : ∃ r, Linked h.next p ps r := by
        rw [hall] at hp
        obtain ⟨m, hm, -⟩ := linked_append.1 hp
        exact ⟨m, hm⟩
      rw [hsplit] at hq
      rw [hall] at hnodup
      have hempty : qs.length < insize → rest = [] := fun hlt => List.length_eq_zero_iff.1 (by omega)
      obtain ⟨h', list', tail', q', hmerge, hb', hq'⟩ := @merge_spec _ _ cmp doubly fuel h p q list tail ps.length insize out ps qs rest
        hb hp' hq rfl (by omega) hempty hnodup (by omega)
      have hmerged := StableSort.of_merge hcmp.preorder hpsorted hqsorted
      have hnodup' : (out ++ ps.merge qs (atMost cmp) ++ rest).Nodup := by
        refine (List.Perm.nodup_iff ?_).1 hnodup
        rw [List.append_assoc, ← List.append_assoc ps]
        exact (hmerged.same.perm.append_right rest).append_left out
      obtain ⟨h'', list'', tail'', c, ys, hpass, hb'', hsame, hruns', hcount, hzero, hone⟩ := @ih h' q' list' tail' (nmerges + 1)
        _ rest hb' hq' (hrest ▸ hruns.drop.drop) hnodup' (by omega)
      have hmlen : (ps.merge qs (atMost cmp)).length = ps.length + qs.length := List.length_merge _ _ _
      have hylen : rest.length = ys.length := hsame.perm.length_eq
      refine ⟨h'', list'', tail'', c + 1, ps.merge qs (atMost cmp) ++ ys, ?_, ?_, ?_, ?_, ?_, fun h0 => absurd h0 hxs, fun hle => ?_⟩
      · rw [Nat.zero_add] at hstep
        simp only [hstep, hmerge, hpass, Option.bind_eq_bind, Option.bind_some, Nat.add_assoc, Nat.add_comm 1 c]
      · rwa [← List.append_assoc]
      · rw [hall, ← List.append_assoc]
        exact hmerged.same.append hsame
      · by_cases hlast : rest = []
        · obtain rfl : ys = [] := List.length_eq_zero_iff.1 (by rw [← hylen, hlast]; rfl)
          rw [List.append_nil]
          exact .last (by omega) hmerged.sorted
        · have hfull : qs.length = insize := by
            by_contra hshort
            exact hlast (hempty (by omega))
          have hrpos : 0 < rest.length := List.length_pos_of_ne_nil hlast
          exact .cons (by omega) hmerged.sorted hruns'
      · rw [Nat.succ_mul]
        omega
      · have hlast : rest = [] := List.length_eq_zero_iff.1 (by omega)
        have hc := hzero hlast
        omega

/-- The passes end with a list that is one run. -/
theorem passes_spec (hcmp : Comparison cmp) {fuel insize : Nat} {h : Heap N} {list : Option N} {xs : List N} (hpos : 0 < insize)
    (hlist : Linked h.next list xs none) (hle : insize ≤ xs.length) (hruns : Runs (AtMost cmp) insize xs)
    (hfuel : 2 * xs.length + 2 < fuel + insize) :
    ∃ h' list' ys, passes doubly cmp fuel h list insize = some (h', list', ys.getLast?) ∧ StableSort (AtMost cmp) xs ys ∧
      Linked h'.next list' ys none ∧ (doubly = true → Backed h'.prev none ys) := by
  induction fuel generalizing h list xs insize with
  | zero => omega
  | succ fuel ih =>
    obtain ⟨h1, list1, tail1, c, ys, hpass, hb, hsame, hruns', hcount, -, hone⟩ := @pass_spec _ _ cmp doubly hcmp insize fuel h list
      none none 0 [] xs hpos (.nil h) hlist hruns hlist.nodup (by omega)
    have hlen := hsame.perm.length_eq
    have hnodup : ys.Nodup := hsame.perm.nodup_iff.1 hlist.nodup
    rw [List.nil_append] at hb
    obtain ⟨hhead, htail, ⟨r, hlinked⟩, hbacked⟩ := hb
    rcases List.eq_nil_or_concat ys with rfl | ⟨front, t, rfl⟩
    · rw [List.length_nil] at hlen
      omega
    · rw [List.concat_eq_append] at *
      have ht : t ∉ front := fun ht => (List.nodup_append.1 hnodup).2.2 t ht t (List.mem_singleton.2 rfl) rfl
      have hlast : (front ++ [t]).getLast? = some t := List.getLast?_concat
      have hended := hlinked.update ht none
      rw [hlast] at htail
      rw [passes]
      simp only [hpass, htail, Option.bind_eq_bind, Option.bind_some, Nat.zero_add]
      split
      next hc =>
        refine ⟨h1.setNext t none, list1, front ++ [t], by rw [hlast], ⟨?_, hsame⟩, hended, hbacked⟩
        have hshort : (front ++ [t]).length ≤ insize * 2 := by
          rw [← hlen]
          exact Nat.le_trans hcount (Nat.le_trans (Nat.mul_le_mul_right _ hc) (Nat.le_of_eq (Nat.one_mul _)))
        have htake := hruns'.take
        rwa [List.take_of_length_le hshort] at htake
      next hc =>
        have hlong : insize * 2 < xs.length := by
          by_contra hle'
          exact hc (hone (by omega))
        obtain ⟨h', list', zs, hrest, hstable, hlinked', hbacked'⟩ := @ih (insize * 2) (h1.setNext t none) list1 (front ++ [t])
          (by omega) hended (by omega) hruns' (by omega)
        exact ⟨h', list', zs, hrest, .of_same hsame hstable, hlinked', hbacked'⟩

/-- Three nodes, `3`, `1` and `2`. -/
def three : Heap Int where
  next n := if n = 3 then some 1 else if n = 1 then some 2 else none
  prev _ := none

end EvilHaxe.Ds.ListSort
