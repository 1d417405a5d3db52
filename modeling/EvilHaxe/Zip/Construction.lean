/-
The loops of `make` give each symbol its code of RFC 1951, and the tree that is made of the codes leads along them.
-/
import EvilHaxe.Zip.Canonical
import EvilHaxe.Zip.Tables

namespace EvilHaxe.Zip.HuffTools

open Lib Canonical Huffman

/-! ## The loops -/

theorem countLoop_spec {maxbits : Nat} {ls counts : List Nat} (hls : ∀ l ∈ ls, l < maxbits)
    (hcounts : counts.length = maxbits) : ∃ counts', countLoop maxbits ls counts = .ok counts' ∧
      counts'.length = maxbits ∧ ∀ l < maxbits, counts'.getD l 0 = counts.getD l 0 + ls.count l := by
  induction ls generalizing counts with
  | nil => exact ⟨counts, rfl, hcounts, fun l _ => by rw [List.count_nil, Nat.add_zero]⟩
  | cons p ls ih =>
    have hp := hls p List.mem_cons_self
    obtain ⟨counts', hrun, hlength, hget⟩ := @ih (counts.modify p (· + 1))
      (fun l hl => hls l (List.mem_cons_of_mem p hl)) (by rw [List.length_modify, hcounts])
    refine ⟨counts', by rw [countLoop, if_neg (by omega), hrun], hlength, fun l hl => ?_⟩
    have hmodify : (counts.modify p (· + 1)).getD l 0 = counts.getD l 0 + if p = l then 1 else 0 := by
      rw [List.getD_eq_getElem?_getD, List.getD_eq_getElem?_getD, List.getElem?_modify,
        List.getElem?_eq_getElem (by omega)]
      split <;> rfl
    rw [hget l hl, hmodify, List.count_cons]
    simp only [beq_iff_eq]
    omega

theorem codeLoop_spec {ls counts : List Nat} {rounds i code : Nat} {tmp : List Nat} (hi : 0 < i)
    (hcounts : ∀ l, 0 < l → l < i + rounds → counts.getD l 0 = ls.count l) (hcode : code = firstCode ls i % 2 ^ 32)
    (hlength : i + rounds ≤ tmp.length) :
    (codeLoop counts rounds i code tmp).length = tmp.length ∧ ∀ l, (codeLoop counts rounds i code tmp).getD l 0 =
      if i ≤ l ∧ l < i + rounds then firstCode ls (l + 1) % 2 ^ 32 else tmp.getD l 0 := by
  induction rounds generalizing i code tmp with
  | zero => exact ⟨rfl, fun l => by rw [codeLoop, if_neg (by omega)]⟩
  | succ rounds ih =>
    have hnext : ((code + counts.getD i 0) <<< 1) % 2 ^ 32 = firstCode ls (i + 1) % 2 ^ 32 := by
      rw [hcounts i hi (by omega), hcode, firstCode, countOf, if_neg (by omega), Nat.shiftLeft_eq]
      omega
    obtain ⟨hlength', hget⟩ := @ih (i + 1) (((code + counts.getD i 0) <<< 1) % 2 ^ 32)
      (tmp.set i (((code + counts.getD i 0) <<< 1) % 2 ^ 32)) (Nat.succ_pos i) (fun l hl hlt => hcounts l hl (by omega))
      hnext (by rw [List.length_set]; omega)
    refine ⟨by rw [codeLoop, hlength', List.length_set], fun l => ?_⟩
    rw [codeLoop, hget l]
    rcases Nat.lt_trichotomy l i with hlt | rfl | hgt
    · rw [if_neg (by omega), if_neg (by omega), List.getD_eq_getElem?_getD, List.getElem?_set_ne (Nat.ne_of_gt hlt),
        List.getD_eq_getElem?_getD]
    · rw [if_neg (by omega), if_pos (by omega), List.getD_eq_getElem?_getD, List.getElem?_set_self (by omega), hnext]
      rfl
    · by_cases hin : l < i + (rounds + 1)
      · rw [if_pos (by omega), if_pos (by omega)]
      · rw [if_neg (by omega), if_neg (by omega), List.getD_eq_getElem?_getD, List.getElem?_set_ne (Nat.ne_of_lt hgt),
          List.getD_eq_getElem?_getD]

/-- The key under which a symbol is kept. -/
def keyOf (ls : List Nat) (i : Nat) : Nat := index (code ls i % 2 ^ 32) (ls.getD i 0)

/-- The map has the symbols before `n`, under their keys. -/
structure Assigned (ls : List Nat) (n : Nat) (bits : IntMap) : Prop where
  has : ∀ i < n, IsSymbol ls i → (bits (keyOf ls i)).isSome
  only : ∀ k j, bits k = some j → j < n ∧ IsSymbol ls j ∧ k = keyOf ls j

theorem Assigned.skip {ls : List Nat} {n : Nat} {bits : IntMap} (h : Assigned ls n bits) (hn : ¬ IsSymbol ls n) :
    Assigned ls (n + 1) bits where
  has i hi hsymbol := by
    refine h.has i (Nat.lt_of_le_of_ne (Nat.le_of_lt_succ hi) ?_) hsymbol
    rintro rfl
    exact hn hsymbol
  only k j hj := ⟨Nat.lt_succ_of_lt (h.only k j hj).1, (h.only k j hj).2⟩

theorem Assigned.set {ls : List Nat} {n : Nat} {bits : IntMap} (h : Assigned ls n bits) (hn : IsSymbol ls n) :
    Assigned ls (n + 1) (bits.set (keyOf ls n) n) where
  has i hi hsymbol := by
    unfold IntMap.set
    split
    · rfl
    next hne =>
      refine h.has i (Nat.lt_of_le_of_ne (Nat.le_of_lt_succ hi) ?_) hsymbol
      rintro rfl
      exact hne rfl
  only k j hj := by
    unfold IntMap.set at hj
    split at hj
    next hk =>
      cases hj
      exact ⟨Nat.lt_succ_self n, hn, hk⟩
    · exact ⟨Nat.lt_succ_of_lt (h.only k j hj).1, (h.only k j hj).2⟩

/-- Each symbol takes the next code of its length. -/
theorem assignLoop_spec {maxbits : Nat} {front rest : List Nat} {tmp : List Nat} {bits : IntMap}
    (hls : ∀ l ∈ rest, l < maxbits) (hlength : tmp.length = maxbits)
    (htmp : ∀ l, 0 < l → l < maxbits →
      tmp.getD (l - 1) 0 = (firstCode (front ++ rest) l + front.count l) % 2 ^ 32)
    (hbits : Assigned (front ++ rest) front.length bits) :
    Assigned (front ++ rest) (front ++ rest).length (assignLoop front.length rest tmp bits) := by
  induction rest generalizing front tmp bits with
  | nil =>
    rw [List.append_nil] at hbits ⊢
    exact hbits
  | cons l rest ih =>
    have hget : (front ++ l :: rest).getD front.length 0 = l := by
      rw [List.getD_eq_getElem?_getD, List.getElem?_append_right le_rfl, Nat.sub_self]
      rfl
    have hassoc : front ++ l :: rest = front ++ [l] ++ rest := List.append_cons front l rest
    have hrest : ∀ p ∈ rest, p < maxbits := fun p hp => hls p (List.mem_cons_of_mem l hp)
    have hcount (p : Nat) : (front ++ [l]).count p = front.count p + if l = p then 1 else 0 := by
      rw [List.count_append, List.count_singleton]
      simp only [beq_iff_eq]
    have hsucc : front.length + 1 = (front ++ [l]).length := by rw [List.length_append, List.length_singleton]
    rw [assignLoop]
    by_cases hl : l = 0
    · have hskip : Assigned (front ++ l :: rest) (front.length + 1) bits := hbits.skip fun h => h (by rw [hget, hl])
      rw [if_neg (not_not.2 hl), hsucc]
      rw [hsucc] at hskip
      rw [hassoc] at hskip htmp ⊢
      refine ih hrest hlength (fun p hp hpm => ?_) hskip
      rw [htmp p hp hpm, hcount, if_neg (by omega), Nat.add_zero]
    · have hlt := hls l List.mem_cons_self
      have hsymbol : IsSymbol (front ++ l :: rest) front.length := by
        rw [IsSymbol, hget]
        exact hl
      have hkey : index (tmp.getD (l - 1) 0) l = keyOf (front ++ l :: rest) front.length := by
        rw [keyOf, code, hget, List.take_left, htmp l (by omega) hlt]
      have hset := hbits.set hsymbol
      rw [if_pos hl]
      dsimp only
      rw [hkey, hsucc]
      rw [hsucc] at hset
      rw [hassoc] at hset htmp ⊢
      refine ih hrest (by rw [List.length_set, hlength]) (fun p hp hpm => ?_) hset
      rw [hcount, List.getD_eq_getElem?_getD]
      by_cases hpl : l = p
      · subst hpl
        rw [List.getElem?_set_self (by omega), if_pos rfl, Option.getD_some, htmp l hp hpm]
        omega
      · rw [List.getElem?_set_ne (by omega), ← List.getD_eq_getElem?_getD, htmp p hp hpm, if_neg hpl, Nat.add_zero]

/-- What `make` looks the codes up in. -/
def codeMap (maxbits : Nat) (ls : List Nat) : Except Thrown IntMap := do
  let counts ← countLoop maxbits ls (List.replicate maxbits 0)
  let tmp := codeLoop counts (maxbits - 2) 1 0 (List.replicate maxbits 0)
  return assignLoop 0 ls tmp fun _ => none

theorem codeMap_spec {maxbits : Nat} {ls : List Nat} (hls : ∀ l ∈ ls, l < maxbits) :
    ∃ bits, codeMap maxbits ls = .ok bits ∧ Assigned ls ls.length bits := by
  obtain ⟨counts, hcounts, hlength, hget⟩ := countLoop_spec hls (List.length_replicate : (List.replicate maxbits 0).length = maxbits)
  have hzero (l : Nat) : (List.replicate maxbits 0).getD l 0 = 0 := by
    rw [List.getD_eq_getElem?_getD, List.getElem?_replicate]
    split <;> rfl
  have hcount : ∀ l, 0 < l → l < 1 + (maxbits - 2) → counts.getD l 0 = ls.count l := by
    intro l _ hlt
    rw [hget l (by omega), hzero, Nat.zero_add]
  refine ⟨_, by rw [codeMap, hcounts]; rfl, ?_⟩
  by_cases hmax : maxbits ≤ 1
  · -- all lengths are zero
    have hnone (i : Nat) : ¬ IsSymbol ls i := by
      intro h
      have hi := lt_length_of_isSymbol h
      have hlt := hls _ (List.getElem_mem hi)
      refine h ?_
      rw [List.getD_eq_getElem _ _ hi]
      omega
    have hskip : ∀ (l : List Nat) (i : Nat) (tmp : List Nat) (bits : IntMap), (∀ p ∈ l, p = 0) →
        assignLoop i l tmp bits = bits := by
      intro l
      induction l with
      | nil => intros; rfl
      | cons p l ih =>
        intro i tmp bits hl
        rw [assignLoop, if_neg (not_not.2 (hl p List.mem_cons_self)), ih _ _ _ fun q hq => hl q (List.mem_cons_of_mem p hq)]
    rw [hskip ls _ _ _ fun p hp => by have := hls p hp; omega]
    exact ⟨fun i _ h => absurd h (hnone i), nofun⟩
  · obtain ⟨htmplength, htmp⟩ := @codeLoop_spec ls counts (maxbits - 2) 1 0 (List.replicate maxbits 0) Nat.one_pos hcount
      rfl (by rw [List.length_replicate]; omega)
    rw [List.length_replicate] at htmplength
    refine @assignLoop_spec maxbits [] ls _ _ hls htmplength (fun l hl hlt => ?_) ⟨nofun, nofun⟩
    rw [htmp, List.nil_append, List.count_nil, Nat.add_zero]
    by_cases hone : l = 1
    · subst hone
      rw [if_neg (by omega), hzero]
      rfl
    · rw [if_pos (by omega), Nat.sub_add_cancel hl, Nat.add_zero]

theorem make_eq {lengths : List Nat} {pos nlengths maxbits : Nat} (hone : nlengths ≠ 1) (hmax : maxbits ≤ 32) :
    make lengths pos nlengths maxbits = (do
      let bits ← codeMap maxbits (lengthsAt lengths pos nlengths)
      let left ← treeMake bits maxbits 0 1
      let right ← treeMake bits maxbits 1 1
      treeCompress (.needBit left right)) := by
  rw [make, if_neg hone, if_neg (by omega), codeMap]
  dsimp only
  cases countLoop maxbits (lengthsAt lengths pos nlengths) (List.replicate maxbits 0) <;> rfl

/-! ## Keys -/

theorem index_eq {v len : Nat} (hv : v < 2 ^ 27) (hlen : len < 32) : index v len = v * 32 + len := by
  have hlen : len < 2 ^ 5 := hlen
  rw [index, ← Nat.shiftLeft_add_eq_or_of_lt hlen, Nat.shiftLeft_eq, Nat.mod_eq_of_lt (by omega)]

section

variable {ls : List Nat} {bits : IntMap} {maxbits : Nat}

/-- Among what is taken, the number of a code is found. -/
theorem Assigned.isSome (h : Assigned ls ls.length bits) {v l : Nat} (hv : v < 2 ^ 27) (hl : l ≠ 0)
    (hfirst : firstCode ls l ≤ v) (hlt : v < taken ls l) : (bits (index v l)).isSome := by
  obtain ⟨i, hi, hget, hcode⟩ := exists_code hl hfirst hlt
  have hsymbol : IsSymbol ls i := by
    rw [IsSymbol, hget]
    exact hl
  have hsome := h.has i hi hsymbol
  rwa [keyOf, hget, hcode, Nat.mod_eq_of_lt (by omega)] at hsome

/-- No more is taken than there are numbers. -/
def Fits (ls : List Nat) (maxbits : Nat) : Prop := kraft ls maxbits ≤ 2 ^ maxbits

theorem Fits.taken_le (h : Fits ls maxbits) {l : Nat} (hl : l ≤ maxbits) : taken ls l ≤ 2 ^ l := by
  obtain ⟨k, rfl⟩ : ∃ k, maxbits = l + k := ⟨maxbits - l, by omega⟩
  have hle := taken_mul_le ls l k
  unfold Fits at h
  rw [← taken_eq_kraft, Nat.pow_add] at h
  exact Nat.le_of_mul_le_mul_right (hle.trans h) (Nat.two_pow_pos k)

theorem Fits.code_lt (h : Fits ls maxbits) (hls : ∀ l ∈ ls, l < maxbits) {i : Nat} (hi : IsSymbol ls i) :
    ls.getD i 0 < maxbits ∧ code ls i < 2 ^ ls.getD i 0 := by
  have hlength := lt_length_of_isSymbol hi
  have hlt : ls.getD i 0 < maxbits := by
    rw [List.getD_eq_getElem _ _ hlength]
    exact hls _ (List.getElem_mem hlength)
  exact ⟨hlt, (code_lt_taken hi).trans_le (h.taken_le hlt.le)⟩

/-- If the codes fit, what is found is the symbol of the code. -/
theorem Assigned.code_of_some (h : Assigned ls ls.length bits) (hfits : Fits ls maxbits) (hls : ∀ l ∈ ls, l < maxbits)
    (hmax : maxbits ≤ 16) {v len j : Nat} (hv : v < 2 ^ len) (hlen : len ≤ maxbits) (hj : bits (index v len) = some j) :
    IsSymbol ls j ∧ ls.getD j 0 = len ∧ code ls j = v := by
  obtain ⟨-, hsymbol, hkey⟩ := h.only _ j hj
  obtain ⟨hlt, hcode⟩ := hfits.code_lt hls hsymbol
  have hcode16 : code ls j < 2 ^ 16 := hcode.trans_le (Nat.pow_le_pow_right (by decide) (by omega))
  have hv16 : v < 2 ^ 16 := hv.trans_le (Nat.pow_le_pow_right (by decide) (by omega))
  rw [keyOf, Nat.mod_eq_of_lt (by omega), index_eq (by omega) (by omega), index_eq (by omega) (by omega)] at hkey
  refine ⟨hsymbol, ?_, ?_⟩ <;> omega

/-! ## The tree -/

theorem double_or_one (v : Nat) : v * 2 ||| 1 = v * 2 + 1 := by
  have hor : v <<< 1 + 1 = v <<< 1 ||| 1 := Nat.shiftLeft_add_eq_or_of_lt (by decide) v
  rwa [Nat.shiftLeft_eq, eq_comm] at hor

theorem treeMake_none {v len : Nat} (hv : v < 2 ^ 16) (hlen : len ≤ maxbits) (hget : bits (index v len) = none) :
    treeMake bits maxbits v len = (do
      let left ← treeMake bits maxbits (v * 2) (len + 1)
      let right ← treeMake bits maxbits (v * 2 + 1) (len + 1)
      return .needBit left right) := by
  have hdouble : (v <<< 1) % 2 ^ 32 = v * 2 := by rw [Nat.shiftLeft_eq, Nat.mod_eq_of_lt (by omega)]
  rw [treeMake, if_neg (by omega), hget]
  dsimp only
  rw [hdouble, double_or_one]

/-- Below a number that no shorter code takes, the tree is made if the codes take every number. -/
theorem treeMake_ok (h : Assigned ls ls.length bits) (hmax : maxbits ≤ 16) (hfull : 2 ^ maxbits ≤ kraft ls maxbits)
    {v len : Nat} (hpos : len ≠ 0) (hlen : len ≤ maxbits) (hv : v < 2 ^ len) (hfirst : firstCode ls len ≤ v) :
    ∃ t, treeMake bits maxbits v len = .ok t ∧ Plain t := by
  cases hget : bits (index v len) with
  | some i => exact ⟨.found i, by rw [treeMake, if_neg (by omega), hget], .found i⟩
  | none =>
    have hv16 : v < 2 ^ 16 := hv.trans_le (Nat.pow_le_pow_right (by decide) (by omega))
    have hbehind : taken ls len ≤ v := by
      by_contra hlt
      have hsome := h.isSome (by omega) hpos hfirst (by omega)
      rw [hget] at hsome
      cases hsome
    have hne : len ≠ maxbits := by
      rintro rfl
      rw [taken_eq_kraft] at hbehind
      omega
    have hnext : firstCode ls (len + 1) ≤ v * 2 := by rw [firstCode_succ]; omega
    have hpow : 2 ^ (len + 1) = 2 ^ len * 2 := Nat.pow_succ 2 len
    obtain ⟨a, ha, hpa⟩ := @treeMake_ok h hmax hfull (v * 2) (len + 1) (Nat.succ_ne_zero len) (by omega) (by omega) hnext
    obtain ⟨b, hb, hpb⟩ :=
      @treeMake_ok h hmax hfull (v * 2 + 1) (len + 1) (Nat.succ_ne_zero len) (by omega) (by omega) (by omega)
    refine ⟨.needBit a b, ?_, .needBit hpa hpb⟩
    rw [treeMake_none hv16 hlen hget, ha, hb]
    rfl
termination_by maxbits - len

/-- Below the number of the last path, nothing is found if the codes leave a number free. -/
theorem treeMake_last (h : Assigned ls ls.length bits) (hmax : maxbits ≤ 16) (hls : ∀ l ∈ ls, l < maxbits)
    (hfree : kraft ls maxbits < 2 ^ maxbits) {len : Nat} : ∃ e, treeMake bits maxbits (2 ^ len - 1) len = .error e := by
  by_cases hlen : len ≤ maxbits
  · have hone := Nat.two_pow_pos len
    have hget : bits (index (2 ^ len - 1) len) = none := by
      rw [Option.eq_none_iff_forall_ne_some]
      intro j hj
      obtain ⟨hsymbol, hl, hcode⟩ := h.code_of_some hfree.le hls hmax (by omega) hlen hj
      have hlt := code_lt_taken hsymbol
      obtain ⟨k, rfl⟩ : ∃ k, maxbits = len + k := ⟨maxbits - len, by omega⟩
      have hmul := taken_mul_le ls len k
      rw [← taken_eq_kraft, Nat.pow_add] at hfree
      have hfits := Nat.lt_of_mul_lt_mul_right (hmul.trans_lt hfree)
      rw [hl] at hlt
      omega
    have hsmall : 2 ^ len - 1 < 2 ^ 16 :=
      (Nat.sub_lt hone Nat.one_pos).trans_le (Nat.pow_le_pow_right (by decide) (by omega))
    have hnext : (2 ^ len - 1) * 2 + 1 = 2 ^ (len + 1) - 1 := by
      rw [Nat.pow_succ]
      omega
    obtain ⟨e, he⟩ := @treeMake_last h hmax hls hfree (len + 1)
    rw [treeMake_none hsmall hlen hget, hnext, he]
    cases treeMake bits maxbits ((2 ^ len - 1) * 2) (len + 1) with
    | error e' => exact ⟨e', rfl⟩
    | ok a => exact ⟨e, rfl⟩
  · exact ⟨.invalidHuffman, by rw [treeMake, if_pos (by omega)]⟩
termination_by maxbits + 1 - len

/-! ## The codes of the tree -/

/-- The tree leads along the code to the symbol, and to none before its end. -/
structure Leads (t : Huffman) (w : List Bool) (i : Int) : Prop where
  reads : t.Reads w i
  short : ∀ u more, more ≠ [] → w = u ++ more → t.Short u

theorem Leads.needBit {a b : Huffman} {c : Bool} {w : List Bool} {i : Int} (h : Leads (if c then b else a) w i) :
    Leads (.needBit a b) (c :: w) i where
  reads := by
    cases c with
    | false => exact .left b h.reads
    | true => exact .right a h.reads
  short u more hmore hw := by
    cases u with
    | nil => exact .bit a b
    | cons d u =>
      rw [List.cons_append, List.cons_eq_cons] at hw
      obtain ⟨rfl, hw⟩ := hw
      cases c with
      | false => exact .left b (h.short u more hmore hw)
      | true => exact .right a (h.short u more hmore hw)

/-- The tree leads along the codes that begin with the number `v` of `len` bits. -/
def Follows (ls : List Nat) (v len : Nat) (t : Huffman) : Prop := ∀ i, IsSymbol ls i → len ≤ ls.getD i 0 →
  code ls i / 2 ^ (ls.getD i 0 - len) = v → Leads t (highFirst (ls.getD i 0 - len) (code ls i)) i

theorem follows_needBit {v len : Nat} {a b : Huffman} (ha : Follows ls (v * 2) (len + 1) a)
    (hb : Follows ls (v * 2 + 1) (len + 1) b) (hnone : ∀ i, IsSymbol ls i → ls.getD i 0 = len → code ls i ≠ v) :
    Follows ls v len (.needBit a b) := by
  intro i hi hle hv
  obtain ⟨k, hk⟩ : ∃ k, ls.getD i 0 = len + (k + 1) := by
    refine ⟨ls.getD i 0 - len - 1, ?_⟩
    have hne : ls.getD i 0 ≠ len := by
      intro heq
      rw [heq, Nat.sub_self, Nat.pow_zero, Nat.div_one] at hv
      exact hnone i hi heq hv
    omega
  have hrest : ls.getD i 0 - (len + 1) = k := by omega
  rw [hk, Nat.add_sub_cancel_left, Nat.pow_succ, ← Nat.div_div_eq_div_mul] at hv
  rw [hk, Nat.add_sub_cancel_left, highFirst]
  refine Leads.needBit ?_
  rcases Nat.mod_two_eq_zero_or_one (code ls i / 2 ^ k) with hbit | hbit
  · have h := ha i hi (by omega) (by rw [hrest]; omega)
    rw [hrest] at h
    rw [hbit]
    exact h
  · have h := hb i hi (by omega) (by rw [hrest]; omega)
    rw [hrest] at h
    rw [hbit]
    exact h

theorem treeMake_follows (h : Assigned ls ls.length bits) (hfits : Fits ls maxbits) (hls : ∀ l ∈ ls, l < maxbits)
    (hmax : maxbits ≤ 16) {v len : Nat} (hlen : len ≤ maxbits) (hv : v < 2 ^ len) {t : Huffman}
    (ht : treeMake bits maxbits v len = .ok t) : Follows ls v len t := by
  cases hget : bits (index v len) with
  | some j =>
    obtain ⟨hj, hlj, hcode⟩ := h.code_of_some hfits hls hmax hv hlen hget
    rw [treeMake, if_neg (by omega), hget] at ht
    cases ht
    intro i hi hle hvi
    have hl : ls.getD i 0 = len := by
      by_contra hne
      have hbelow := @code_not_below ls i len (by omega)
      have hlt := code_lt_taken hj
      rw [hvi] at hbelow
      rw [hlj, hcode] at hlt
      omega
    have hij : i = j := by
      rw [hl, Nat.sub_self, Nat.pow_zero, Nat.div_one] at hvi
      exact code_inj hi hj (hl.trans hlj.symm) (hvi.trans hcode.symm)
    subst hij
    rw [hl, Nat.sub_self]
    exact ⟨.found i, fun u more hmore hw => absurd (List.append_eq_nil_iff.1 hw.symm).2 hmore⟩
  | none =>
    have hv16 : v < 2 ^ 16 := hv.trans_le (Nat.pow_le_pow_right (by decide) (by omega))
    rw [treeMake_none hv16 hlen hget] at ht
    cases ha : treeMake bits maxbits (v * 2) (len + 1) with
    | error e => rw [ha] at ht; cases ht
    | ok a =>
      cases hb : treeMake bits maxbits (v * 2 + 1) (len + 1) with
      | error e => rw [ha, hb] at ht; cases ht
      | ok b =>
        rw [ha, hb] at ht
        cases ht
        have hlen' : len + 1 ≤ maxbits := by
          by_contra hgt
          rw [treeMake, if_pos (by omega)] at ha
          cases ha
        have hpow : 2 ^ (len + 1) = 2 ^ len * 2 := Nat.pow_succ 2 len
        refine follows_needBit (treeMake_follows h hfits hls hmax hlen' (by omega) ha)
          (treeMake_follows h hfits hls hmax hlen' (by omega) hb) fun i hi hl hcode => ?_
        have hsome := h.has i (lt_length_of_isSymbol hi) hi
        rw [keyOf, hl, hcode, Nat.mod_eq_of_lt (by omega), hget] at hsome
        cases hsome
termination_by maxbits - len

end

end EvilHaxe.Zip.HuffTools
