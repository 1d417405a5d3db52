/-
What `applyHuffman` does with the bits that lie ahead: it reads the code along which the tree leads to a symbol, and no
bit more.
-/
import EvilHaxe.Lib.BitStrings
import EvilHaxe.Zip.Huffman

namespace EvilHaxe.Zip

open Lib

namespace Huffman

/-- The tree leads along the bits to the symbol. -/
inductive Reads : Huffman → List Bool → Int → Prop where
  | found (i : Int) : Reads (.found i) [] i
  | left {a : Huffman} (b : Huffman) {w : List Bool} {i : Int} : Reads a w i → Reads (.needBit a b) (false :: w) i
  | right (a : Huffman) {b : Huffman} {w : List Bool} {i : Int} : Reads b w i → Reads (.needBit a b) (true :: w) i
  | table {tbl : List Huffman} {h : Huffman} {v w : List Bool} {i : Int} :
      tbl[ofLowFirst v]? = some h → Reads h w i → Reads (.needBits v.length tbl) (v ++ w) i

/-- The tree asks for more than the bits. -/
inductive Short : Huffman → List Bool → Prop where
  | bit (a b : Huffman) : Short (.needBit a b) []
  | left {a : Huffman} (b : Huffman) {w : List Bool} : Short a w → Short (.needBit a b) (false :: w)
  | right (a : Huffman) {b : Huffman} {w : List Bool} : Short b w → Short (.needBit a b) (true :: w)
  | bits {n : Nat} (tbl : List Huffman) {w : List Bool} : w.length < n → Short (.needBits n tbl) w
  | table {tbl : List Huffman} {h : Huffman} {v w : List Bool} :
      tbl[ofLowFirst v]? = some h → Short h w → Short (.needBits v.length tbl) (v ++ w)

end Huffman

namespace InflateImpl

structure WF (s : InflateImpl) : Prop where
  bits_lt : s.bits < 2 ^ s.nbits

/-- The bits that have not been read. -/
def ahead (s : InflateImpl) : List Bool := lowFirst s.nbits s.bits ++ s.input.flatMap fun b => lowFirst 8 b.toNat

theorem getBit_cons {s : InflateImpl} (hs : s.WF) {b : Bool} {rest : List Bool} (h : s.ahead = b :: rest) :
    ∃ s', getBit s = .ok (b, s') ∧ s'.WF ∧ s'.ahead = rest := by
  obtain ⟨nbits, bits, input⟩ := s
  have hbits : bits < 2 ^ nbits := hs.bits_lt
  have htake (n x : Nat) (hx : x < 2 ^ (n + 1)) (input : List UInt8)
      (h : lowFirst (n + 1) x ++ input.flatMap (fun b => lowFirst 8 b.toNat) = b :: rest) :
      (x &&& 1 == 1) = b ∧ WF ⟨n, x >>> 1, input⟩ ∧ ahead ⟨n, x >>> 1, input⟩ = rest := by
    rw [lowFirst, List.cons_append, List.cons_eq_cons] at h
    have hhalf : x >>> 1 = x / 2 := by rw [Nat.shiftRight_eq_div_pow, Nat.pow_one]
    refine ⟨by rw [Nat.and_one_is_mod, h.1], ⟨?_⟩, ?_⟩
    · rw [hhalf]
      rw [Nat.pow_succ'] at hx
      exact Nat.div_lt_of_lt_mul hx
    · rw [ahead, hhalf]
      exact h.2
  unfold getBit
  cases nbits with
  | zero =>
    cases input with
    | nil => cases h
    | cons c input =>
      have hc : c.toNat < 2 ^ (7 + 1) := c.toNat_lt
      obtain ⟨hbit, hrest⟩ := htake 7 c.toNat hc input h
      exact ⟨_, by rw [← hbit]; rfl, hrest⟩
  | succ nbits =>
    obtain ⟨hbit, hrest⟩ := htake nbits bits hbits input h
    exact ⟨_, by rw [← hbit]; rfl, hrest⟩

theorem getBit_nil {s : InflateImpl} (h : s.ahead = []) : getBit s = .error .eof := by
  obtain ⟨nbits, bits, input⟩ := s
  cases nbits with
  | succ nbits => cases h
  | zero =>
    cases input with
    | cons c input => cases h
    | nil => rfl

theorem fill_spec (n : Nat) {nbits bits : Nat} (hbits : bits < 2 ^ nbits) (input : List UInt8) :
    (∃ s, fill n nbits bits input = .ok s ∧ n ≤ s.nbits ∧ s.WF ∧ s.ahead = ahead ⟨nbits, bits, input⟩) ∨
      (fill n nbits bits input = .error .eof ∧ (ahead ⟨nbits, bits, input⟩).length < n) := by
  induction input generalizing nbits bits with
  | nil =>
    rw [fill]
    split
    next hlt => exact .inr ⟨rfl, by simpa [ahead] using hlt⟩
    next hle => exact .inl ⟨_, rfl, Nat.le_of_not_lt hle, ⟨hbits⟩, rfl⟩
  | cons b input ih =>
    rw [fill]
    split
    next hlt =>
      have hb : b.toNat < 2 ^ 8 := b.toNat_lt
      have hnext : bits ||| b.toNat <<< nbits < 2 ^ (nbits + 8) := by
        refine Nat.or_lt_two_pow ?_ ?_
        · exact hbits.trans_le (Nat.pow_le_pow_right (by decide) (by omega))
        · rw [Nat.shiftLeft_eq, Nat.add_comm nbits, Nat.pow_add]
          exact Nat.mul_lt_mul_of_pos_right hb (Nat.two_pow_pos nbits)
      have hahead : ahead ⟨nbits + 8, bits ||| b.toNat <<< nbits, input⟩ = ahead ⟨nbits, bits, b :: input⟩ := by
        simp only [ahead, lowFirst_or hbits, List.flatMap_cons, List.append_assoc]
      rw [← hahead]
      exact ih hnext
    next hle => exact .inl ⟨_, rfl, Nat.le_of_not_lt hle, ⟨hbits⟩, rfl⟩

theorem getBits_spec {s : InflateImpl} (hs : s.WF) {v rest : List Bool} (h : s.ahead = v ++ rest) :
    ∃ s', getBits v.length s = .ok (ofLowFirst v, s') ∧ s'.WF ∧ s'.ahead = rest := by
  rcases fill_spec v.length hs.bits_lt s.input with ⟨s', hfill, hle, hwf, hahead⟩ | ⟨-, hlt⟩
  · obtain ⟨more, hmore⟩ : ∃ more, s'.nbits = v.length + more := ⟨s'.nbits - v.length, by omega⟩
    have hsplit : lowFirst v.length s'.bits ++
        (lowFirst more (s'.bits / 2 ^ v.length) ++ s'.input.flatMap fun b => lowFirst 8 b.toNat) = v ++ rest := by
      rw [← List.append_assoc, ← lowFirst_add, ← hmore]
      exact hahead.trans h
    obtain ⟨hv, hrest⟩ := List.append_inj hsplit (length_lowFirst _ _)
    have hlow : s'.bits &&& (1 <<< v.length - 1) = ofLowFirst v := by
      rw [Nat.one_shiftLeft, Nat.and_two_pow_sub_one_eq_mod, ← ofLowFirst_lowFirst, hv]
    refine ⟨⟨more, s'.bits >>> v.length, s'.input⟩, ?_, ⟨?_⟩, ?_⟩
    · unfold getBits
      rw [hfill]
      simp only [bind, Except.bind, pure, Except.pure, hlow, hmore, Nat.add_sub_cancel_left]
    · have hlt := hwf.bits_lt
      rw [hmore, Nat.pow_add] at hlt
      rw [Nat.shiftRight_eq_div_pow]
      exact Nat.div_lt_of_lt_mul hlt
    · rw [ahead, Nat.shiftRight_eq_div_pow]
      exact hrest
  · rw [show ahead ⟨s.nbits, s.bits, s.input⟩ = v ++ rest from h, List.length_append] at hlt
    omega

theorem getBits_short {s : InflateImpl} (hs : s.WF) {n : Nat} (h : s.ahead.length < n) :
    getBits n s = .error .eof := by
  rcases fill_spec n hs.bits_lt s.input with ⟨s', -, hle, -, hahead⟩ | ⟨hfill, -⟩
  · have hlength : s'.nbits ≤ s.ahead.length := by
      rw [show s.ahead = s'.ahead from hahead.symm, ahead, List.length_append, length_lowFirst]
      exact Nat.le_add_right _ _
    omega
  · unfold getBits
    rw [hfill]
    rfl

/-! ## Codes -/

theorem applyHuffman_reads {h : Huffman} {w : List Bool} {i : Int} (hreads : h.Reads w i) {s : InflateImpl} (hs : s.WF)
    {rest : List Bool} (hahead : s.ahead = w ++ rest) :
    ∃ s', applyHuffman h s = .ok (i, s') ∧ s'.WF ∧ s'.ahead = rest := by
  induction hreads generalizing s with
  | found i => exact ⟨s, by rw [applyHuffman], hs, hahead⟩
  | left b _ ih =>
    obtain ⟨s1, hbit, hwf, h1⟩ := getBit_cons hs hahead
    obtain ⟨s', happly, hend⟩ := ih hwf h1
    refine ⟨s', ?_, hend⟩
    rw [applyHuffman, hbit]
    exact happly
  | right a _ ih =>
    obtain ⟨s1, hbit, hwf, h1⟩ := getBit_cons hs hahead
    obtain ⟨s', happly, hend⟩ := ih hwf h1
    refine ⟨s', ?_, hend⟩
    rw [applyHuffman, hbit]
    exact happly
  | @table tbl h v w i hget _ ih =>
    rw [List.append_assoc] at hahead
    obtain ⟨s1, hbits, hwf, h1⟩ := getBits_spec hs hahead
    obtain ⟨s', happly, hend⟩ := ih hwf h1
    refine ⟨s', ?_, hend⟩
    rw [applyHuffman, hbits]
    simp only [bind, Except.bind]
    split
    next h' hget' =>
      rw [hget] at hget'
      cases hget'
      exact happly
    next hnone =>
      rw [hget] at hnone
      cases hnone

theorem applyHuffman_short {h : Huffman} {w : List Bool} (hshort : h.Short w) {s : InflateImpl} (hs : s.WF)
    (hahead : s.ahead = w) : applyHuffman h s = .error .eof := by
  induction hshort generalizing s with
  | bit a b =>
    rw [applyHuffman, getBit_nil hahead]
    rfl
  | left b _ ih =>
    obtain ⟨s1, hbit, hwf, h1⟩ := getBit_cons hs hahead
    rw [applyHuffman, hbit]
    exact ih hwf h1
  | right a _ ih =>
    obtain ⟨s1, hbit, hwf, h1⟩ := getBit_cons hs hahead
    rw [applyHuffman, hbit]
    exact ih hwf h1
  | bits tbl hlt =>
    rw [applyHuffman, getBits_short hs (hahead ▸ hlt)]
    rfl
  | table hget _ ih =>
    obtain ⟨s1, hbits, hwf, h1⟩ := getBits_spec hs hahead
    rw [applyHuffman, hbits]
    simp only [bind, Except.bind]
    split
    next h' hget' =>
      rw [hget] at hget'
      cases hget'
      exact ih hwf h1
    next hnone =>
      rw [hget] at hnone
      cases hnone

end InflateImpl

/-! The tables of `treeCompress` lead along the same codes as the tree that they are made from. -/

namespace HuffTools

open Huffman

/-- A tree without tables. -/
inductive Plain : Huffman → Prop where
  | found (i : Int) : Plain (.found i)
  | needBit {a b : Huffman} : Plain a → Plain b → Plain (.needBit a b)

/-- `h` leads along the same codes as `t`. -/
structure Compresses (t h : Huffman) : Prop where
  reads : ∀ w i, t.Reads w i → h.Reads w i
  short : ∀ w, t.Short w → h.Short w

/-- The subtree to which the bits lead. -/
def subtree : List Bool → Huffman → Option Huffman
  | [], t => some t
  | b :: w, .needBit left right => subtree w (if b then right else left)
  | _ :: _, _ => none

theorem reads_subtree {t t' : Huffman} {v w : List Bool} (hsub : subtree v t = some t') {i : Int}
    (h : t.Reads (v ++ w) i) : t'.Reads w i := by
  induction v generalizing t with
  | nil =>
    cases hsub
    exact h
  | cons b v ih =>
    cases t with
    | found i => cases hsub
    | needBits n tbl => cases hsub
    | needBit l r =>
      cases b with
      | false =>
        cases h with
        | left _ h => exact ih hsub h
      | true =>
        cases h with
        | right _ h => exact ih hsub h

theorem short_subtree {t t' : Huffman} {v w : List Bool} (hsub : subtree v t = some t') (h : t.Short (v ++ w)) :
    t'.Short w := by
  induction v generalizing t with
  | nil =>
    cases hsub
    exact h
  | cons b v ih =>
    cases t with
    | found i => cases hsub
    | needBits n tbl => cases hsub
    | needBit l r =>
      cases b with
      | false =>
        cases h with
        | left _ h => exact ih hsub h
      | true =>
        cases h with
        | right _ h => exact ih hsub h

/-! ## Depth -/

/-- Every path of `d` bits leads to a subtree. -/
def Deep (d : Nat) (t : Huffman) : Prop := ∀ v : List Bool, v.length = d → ∃ t', subtree v t = some t'

theorem treeDepth_plain {t : Huffman} (ht : Plain t) : ∃ d, treeDepth t = .ok d ∧ ∀ m ≤ d, Deep m t := by
  induction ht with
  | found i =>
    refine ⟨0, rfl, fun m hm v hv => ⟨.found i, ?_⟩⟩
    have hnil : v = [] := List.eq_nil_of_length_eq_zero (by omega)
    rw [hnil]
    rfl
  | @needBit a b _ _ iha ihb =>
    obtain ⟨da, ha, hadeep⟩ := iha
    obtain ⟨db, hb, hbdeep⟩ := ihb
    refine ⟨1 + if da < db then da else db, ?_, fun m hm v hv => ?_⟩
    · rw [treeDepth, ha, hb]
      rfl
    · have hle : m ≤ 1 + da ∧ m ≤ 1 + db := by split at hm <;> omega
      cases v with
      | nil => exact ⟨_, rfl⟩
      | cons c v =>
        rw [List.length_cons] at hv
        cases c with
        | false => exact hadeep v.length (by omega) v rfl
        | true => exact hbdeep v.length (by omega) v rfl

theorem Deep.length_le_of_reads {d : Nat} {t : Huffman} (hdeep : Deep d t) {w : List Bool} {i : Int} (ht : Plain t)
    (h : t.Reads w i) : d ≤ w.length := by
  by_contra hlt
  -- the path along the code and one bit more leads nowhere
  obtain ⟨t', hsub⟩ := hdeep (w ++ List.replicate (d - w.length) false) (by simp; omega)
  obtain ⟨k, hk⟩ : ∃ k, d - w.length = k + 1 := ⟨d - w.length - 1, by omega⟩
  rw [hk] at hsub
  clear hdeep hlt hk
  induction h with
  | found i => cases hsub
  | left b _ ih =>
    cases ht with
    | needBit ha _ => exact ih ha hsub
  | right a _ ih =>
    cases ht with
    | needBit _ hb => exact ih hb hsub
  | table => cases ht

theorem subtree_plain {t t' : Huffman} {v : List Bool} (hsub : subtree v t = some t') (ht : Plain t) :
    Plain t' ∧ (v ≠ [] → sizeOf t' < sizeOf t) := by
  induction v generalizing t with
  | nil =>
    cases hsub
    exact ⟨ht, fun h => absurd rfl h⟩
  | cons b v ih =>
    cases ht with
    | found i => cases hsub
    | @needBit l r hl hr =>
      have hchild : sizeOf (if b then r else l) < sizeOf (Huffman.needBit l r) := by
        rw [Huffman.needBit.sizeOf_spec]
        split <;> omega
      have hplain : Plain (if b then r else l) := by
        cases b
        · exact hl
        · exact hr
      obtain ⟨ht', hsize⟩ := ih hsub hplain
      refine ⟨ht', fun _ => ?_⟩
      cases v with
      | nil =>
        cases hsub
        exact hchild
      | cons c v => exact (hsize (List.cons_ne_nil c v)).trans hchild

/-! ## The walk -/

/-- The table has what the subtrees at depth `d` are compressed to, at the indices that end in `p`. -/
def Filled (table : List Huffman) (p cd d : Nat) (t : Huffman) : Prop := ∀ v : List Bool, v.length = d →
  ∃ t' h, subtree v t = some t' ∧ Compresses t' h ∧ table[p + 2 ^ cd * ofLowFirst v]? = some h

theorem treeWalk_zero (table : List Huffman) (p cd : Nat) (t : Huffman) :
    treeWalk table p cd 0 t = (treeCompress t).map (table.set p) := by
  rw [treeWalk.eq_def]
  cases t <;> rfl

theorem mod_of_mod_succ {j p cd : Nat} (hp : p < 2 ^ cd) (h : j % 2 ^ (cd + 1) = p ∨ j % 2 ^ (cd + 1) = p + 2 ^ cd) :
    j % 2 ^ cd = p := by
  have hdvd : 2 ^ cd ∣ 2 ^ (cd + 1) := Nat.pow_dvd_pow 2 (Nat.le_succ cd)
  rw [← Nat.mod_mod_of_dvd j hdvd]
  rcases h with h | h
  · rw [h, Nat.mod_eq_of_lt hp]
  · rw [h, Nat.add_mod_right, Nat.mod_eq_of_lt hp]

theorem treeWalk_spec {d : Nat} {t : Huffman} (ht : Plain t) (hdeep : Deep d t)
    (hsubtrees : ∀ v t', v.length = d → subtree v t = some t' → ∃ h, treeCompress t' = .ok h ∧ Compresses t' h)
    {table : List Huffman} {p cd : Nat} (hp : p < 2 ^ cd) (hlength : 2 ^ (cd + d) ≤ table.length) :
    ∃ table', treeWalk table p cd d t = .ok table' ∧ table'.length = table.length ∧
      (∀ j, j % 2 ^ cd ≠ p → table'[j]? = table[j]?) ∧ Filled table' p cd d t := by
  induction d generalizing t table p cd with
  | zero =>
    obtain ⟨h, hcompress, hcompresses⟩ := hsubtrees [] t rfl rfl
    refine ⟨table.set p h, ?_, List.length_set, fun j hj => ?_, fun v hv => ⟨t, h, ?_, hcompresses, ?_⟩⟩
    · rw [treeWalk_zero, hcompress]
      rfl
    · refine List.getElem?_set_ne ?_
      rintro rfl
      exact hj (Nat.mod_eq_of_lt hp)
    · rw [List.eq_nil_of_length_eq_zero hv]
      rfl
    · rw [List.eq_nil_of_length_eq_zero hv]
      exact List.getElem?_set_self (hp.trans_le hlength)
  | succ d ih =>
    cases ht with
    | found i =>
      obtain ⟨t', hsub⟩ := hdeep (List.replicate (d + 1) false) (List.length_replicate)
      cases hsub
    | @needBit l r hl hr =>
      have hsucc : 2 ^ (cd + 1) = 2 ^ cd + 2 ^ cd := by rw [Nat.pow_succ]; omega
      have hlength' : 2 ^ (cd + 1 + d) ≤ table.length := by rwa [Nat.add_assoc, Nat.add_comm 1]
      obtain ⟨table1, hleft, hlength1, hframe1, hfilled1⟩ :=
        @ih l hl (fun v hv => hdeep (false :: v) (congrArg _ hv))
          (fun v t' hv => hsubtrees (false :: v) t' (congrArg _ hv)) table p (cd + 1) (by omega) hlength'
      have hor : p ||| 1 <<< cd = p + 2 ^ cd := by
        rw [Nat.lor_comm, ← Nat.shiftLeft_add_eq_or_of_lt hp, Nat.one_shiftLeft, Nat.add_comm]
      obtain ⟨table2, hright, hlength2, hframe2, hfilled2⟩ :=
        @ih r hr (fun v hv => hdeep (true :: v) (congrArg _ hv))
          (fun v t' hv => hsubtrees (true :: v) t' (congrArg _ hv)) table1 (p + 2 ^ cd) (cd + 1) (by omega)
          (hlength1 ▸ hlength')
      refine ⟨table2, ?_, hlength2.trans hlength1, fun j hj => ?_, fun v hv => ?_⟩
      · rw [treeWalk.eq_def]
        simp only [Nat.succ_pos, gt_iff_lt, if_true, Nat.add_sub_cancel, hleft, bind, Except.bind, hor, hright]
      · rw [hframe2 j fun h => hj (mod_of_mod_succ hp (.inr h)), hframe1 j fun h => hj (mod_of_mod_succ hp (.inl h))]
      · cases v with
        | nil => cases hv
        | cons b v =>
          have hvd : v.length = d := Nat.succ.inj hv
          cases b with
          | false =>
            obtain ⟨t', h, hsub, hcompresses, hget⟩ := hfilled1 v hvd
            have hplace : p + 2 ^ cd * ofLowFirst (false :: v) = p + 2 ^ (cd + 1) * ofLowFirst v := by
              rw [ofLowFirst, Nat.pow_succ, Bool.toNat_false, Nat.zero_add, Nat.mul_assoc]
            refine ⟨t', h, hsub, hcompresses, ?_⟩
            rw [hplace, hframe2 _ ?_, hget]
            rw [Nat.add_mul_mod_self_left, Nat.mod_eq_of_lt (by omega)]
            exact Nat.ne_of_lt (Nat.lt_add_of_pos_right (Nat.two_pow_pos cd))
          | true =>
            obtain ⟨t', h, hsub, hcompresses, hget⟩ := hfilled2 v hvd
            have hplace : p + 2 ^ cd * ofLowFirst (true :: v) = p + 2 ^ cd + 2 ^ (cd + 1) * ofLowFirst v := by
              rw [ofLowFirst, Nat.pow_succ, Bool.toNat_true, Nat.mul_add, Nat.mul_one, Nat.mul_assoc, Nat.add_assoc]
            exact ⟨t', h, hsub, hcompresses, by rw [hplace, hget]⟩

/-! ## The compressed tree -/

theorem split_at {d : Nat} {w : List Bool} (h : d ≤ w.length) : ∃ v rest, v.length = d ∧ w = v ++ rest :=
  ⟨w.take d, w.drop d, List.length_take_of_le h, (List.take_append_drop d w).symm⟩

theorem compresses_table {t : Huffman} (ht : Plain t) {d : Nat} (hdeep : Deep d t) {table : List Huffman}
    (hfilled : Filled table 0 0 d t) : Compresses t (.needBits d table) := by
  constructor
  · intro w i hreads
    obtain ⟨v, rest, rfl, rfl⟩ := split_at (hdeep.length_le_of_reads ht hreads)
    obtain ⟨t', h, hsub, hcompresses, hget⟩ := hfilled v rfl
    rw [Nat.pow_zero, Nat.one_mul, Nat.zero_add] at hget
    exact .table hget (hcompresses.reads rest i (reads_subtree hsub hreads))
  · intro w hshort
    rcases Nat.lt_or_ge w.length d with hlt | hle
    · exact .bits table hlt
    · obtain ⟨v, rest, rfl, rfl⟩ := split_at hle
      obtain ⟨t', h, hsub, hcompresses, hget⟩ := hfilled v rfl
      rw [Nat.pow_zero, Nat.one_mul, Nat.zero_add] at hget
      exact .table hget (hcompresses.short rest (short_subtree hsub hshort))

theorem compresses_needBit {a b a' b' : Huffman} (ha : Compresses a a') (hb : Compresses b b') :
    Compresses (.needBit a b) (.needBit a' b') := by
  constructor
  · intro w i h
    cases h with
    | left _ h => exact .left _ (ha.reads _ _ h)
    | right _ h => exact .right _ (hb.reads _ _ h)
  · intro w h
    cases h with
    | bit => exact .bit _ _
    | left _ h => exact .left _ (ha.short _ h)
    | right _ h => exact .right _ (hb.short _ h)

/-- A tree without tables is compressed to one that leads along the same codes. -/
theorem treeCompress_spec {t : Huffman} (ht : Plain t) : ∃ h, treeCompress t = .ok h ∧ Compresses t h := by
  obtain ⟨d, hdepth, hdeep⟩ := treeDepth_plain ht
  have hsubtrees : ∀ v t', v ≠ [] → subtree v t = some t' → ∃ h, treeCompress t' = .ok h ∧ Compresses t' h := by
    intro v t' hne hsub
    obtain ⟨ht', hsize⟩ := subtree_plain hsub ht
    have hlt := hsize hne
    exact treeCompress_spec ht'
  rw [treeCompress.eq_def]
  split
  next e he => rw [hdepth] at he; cases he
  next h0 => exact ⟨t, rfl, fun _ _ h => h, fun _ h => h⟩
  next h1 =>
    cases ht with
    | found i => cases h1
    | @needBit a b ha hb =>
      obtain ⟨a', hca, hra⟩ := hsubtrees [false] a (List.cons_ne_nil _ _) rfl
      obtain ⟨b', hcb, hrb⟩ := hsubtrees [true] b (List.cons_ne_nil _ _) rfl
      refine ⟨.needBit a' b', ?_, compresses_needBit hra hrb⟩
      simp only [hca, hcb, bind, Except.bind, pure, Except.pure]
  next k hk =>
    obtain rfl : d = k + 2 := by
      rw [hdepth] at hk
      exact Except.ok.inj hk
    have hdeep := hdeep (k + 2) le_rfl
    obtain ⟨table, hwalk, -, -, hfilled⟩ := @treeWalk_spec (k + 2) t ht hdeep
      (fun v t' hv => hsubtrees v t' (by rintro rfl; cases hv)) (List.replicate (2 ^ (k + 2)) (.found (-1))) 0 0
      Nat.one_pos (by rw [List.length_replicate, Nat.zero_add])
    refine ⟨.needBits (k + 2) table, ?_, compresses_table ht hdeep hfilled⟩
    simp only [hwalk, bind, Except.bind, pure, Except.pure]
termination_by sizeOf t

end HuffTools

end EvilHaxe.Zip
