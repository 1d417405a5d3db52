/-
`make` and `applyHuffman` against the canonical code of RFC 1951. A complete code is decoded as it should be. A code that
takes more numbers than there are is not rejected, and one that leaves some free always is, unless there is only one
length.
-/
import EvilHaxe.Zip.Construction

namespace EvilHaxe.Zip

open Lib Canonical

namespace Canonical

/-! ## Decoding -/

theorem decode_symbol {ls : List Nat} {w rest : List Bool} {i : Nat} (h : decode ls w = .symbol i rest) :
    IsSymbol ls i ∧ w = codeword ls i ++ rest := by
  unfold decode at h
  split at h
  next j hfind =>
    cases h
    have hp := List.find?_some hfind
    rw [decide_eq_true_eq] at hp
    obtain ⟨hsymbol, more, rfl⟩ := hp
    refine ⟨hsymbol, ?_⟩
    have hlength : ls.getD i 0 = (codeword ls i).length := (length_highFirst _ _).symm
    rw [hlength, List.drop_left]
  next =>
    split at h <;> cases h

theorem decode_more {ls : List Nat} {w : List Bool} (h : decode ls w = .more) :
    ∃ i more, IsSymbol ls i ∧ more ≠ [] ∧ codeword ls i = w ++ more := by
  unfold decode at h
  split at h
  · cases h
  next hnone =>
    split at h
    next hex =>
      obtain ⟨i, hi, hsymbol, more, hmore⟩ := hex
      refine ⟨i, more, hsymbol, ?_, hmore.symm⟩
      rintro rfl
      have hno := List.find?_eq_none.1 hnone i hi
      rw [List.append_nil] at hmore
      rw [decide_eq_true_eq, ← hmore] at hno
      exact hno ⟨hsymbol, List.prefix_rfl⟩
    · cases h

/-- Under a complete code every sequence of bits begins with a code, or is the beginning of one. -/
theorem decode_complete {ls : List Nat} {width : Nat} (h : Complete ls width) (w : List Bool) :
    decode ls w ≠ .unused := by
  let full := (w ++ List.replicate width false).take width
  have hfull : full.length = width := List.length_take_of_le (by simp)
  have hlt : ofHighFirst full < taken ls width := by
    rw [taken_eq_kraft, h, ← hfull]
    exact ofHighFirst_lt full
  obtain ⟨i, hsymbol, hle, hcode⟩ := exists_code_above hlt
  have hi : i ∈ List.range ls.length := List.mem_range.2 (lt_length_of_isSymbol hsymbol)
  have hprefix : codeword ls i <+: w ++ List.replicate width false := by
    refine List.IsPrefix.trans ⟨highFirst (width - ls.getD i 0) (ofHighFirst full), ?_⟩ (List.take_prefix width _)
    rw [codeword, hcode, ← highFirst_add, Nat.add_sub_cancel' hle]
    have hbits := highFirst_ofHighFirst full
    rwa [hfull] at hbits
  unfold decode
  split
  · rintro ⟨⟩
  next hnone =>
    have hno := List.find?_eq_none.1 hnone i hi
    rw [decide_eq_true_eq] at hno
    rcases List.prefix_or_prefix_of_prefix hprefix (List.prefix_append w _) with hcw | hwc
    · exact absurd ⟨hsymbol, hcw⟩ hno
    · rw [if_pos ⟨i, hi, hsymbol, hwc⟩]
      rintro ⟨⟩

/-! ## Kraft's sum of few codes -/

theorem kraft_replicate_zero (n width : Nat) : kraft (List.replicate n 0) width = 0 := by
  induction n with
  | zero => rfl
  | succ n ih =>
    rw [kraft, List.replicate_succ, List.map_cons, List.sum_cons, slots, if_neg (by omega), Nat.zero_add]
    exact ih

theorem kraft_append (ls ls' : List Nat) (width : Nat) : kraft (ls ++ ls') width = kraft ls width + kraft ls' width := by
  rw [kraft, List.map_append, List.sum_append]
  rfl

theorem kraft_singleton_lt (l width : Nat) : kraft [l] width < 2 ^ width := by
  rw [kraft, List.map_singleton, List.sum_singleton, slots]
  split
  · exact Nat.pow_lt_pow_right (by decide) (by omega)
  · exact Nat.two_pow_pos width

theorem kraft_single_lt {ls : List Nat} (h : Single ls) (width : Nat) : kraft ls width < 2 ^ width := by
  obtain ⟨before, behind, rfl⟩ := h
  have hone := kraft_singleton_lt 1 width
  rw [List.append_cons, kraft_append, kraft_append, kraft_replicate_zero, kraft_replicate_zero]
  omega

end Canonical

namespace HuffTools

open Huffman InflateImpl

/-- The tree decodes what lies ahead as the code does: the same symbol, and over the same bits. -/
def Agrees (ls : List Nat) (h : Huffman) : Prop := ∀ s : InflateImpl, s.WF → match decode ls s.ahead with
  | .symbol i rest => ∃ s', applyHuffman h s = .ok (i, s') ∧ s'.WF ∧ s'.ahead = rest
  | .more => applyHuffman h s = .error .eof
  | .unused => True

theorem agrees_of_leads {ls : List Nat} {h : Huffman} (hleads : ∀ i, IsSymbol ls i → Leads h (codeword ls i) i) :
    Agrees ls h := by
  intro s hs
  split
  next i rest hdecode =>
    obtain ⟨hsymbol, hahead⟩ := decode_symbol hdecode
    exact applyHuffman_reads (hleads i hsymbol).reads hs hahead
  next hdecode =>
    obtain ⟨i, more, hsymbol, hmore, hword⟩ := decode_more hdecode
    exact applyHuffman_short ((hleads i hsymbol).short s.ahead more hmore hword) hs rfl
  next => trivial

theorem Leads.compress {t h : Huffman} (hc : Compresses t h) {w : List Bool} {i : Int} (ht : Leads t w i) : Leads h w i :=
  ⟨hc.reads w i ht.reads, fun u more hmore hw => hc.short u (ht.short u more hmore hw)⟩

/-! ## `make` -/

section

variable {lengths : List Nat} {pos nlengths maxbits : Nat} (hmax : maxbits ≤ 16)
  (hls : ∀ l ∈ lengthsAt lengths pos nlengths, l < maxbits)

include hmax hls

/-- A tree is made if the codes take every number. -/
theorem make_full (hfull : 2 ^ maxbits ≤ kraft (lengthsAt lengths pos nlengths) maxbits) :
    ∃ h, make lengths pos nlengths maxbits = .ok h ∧
      (Fits (lengthsAt lengths pos nlengths) maxbits → Agrees (lengthsAt lengths pos nlengths) h) := by
  have hone : nlengths ≠ 1 := by
    rintro rfl
    exact absurd hfull (Nat.not_le_of_lt (kraft_singleton_lt _ maxbits))
  have hpos : 1 ≤ maxbits := by
    rcases Nat.eq_zero_or_pos maxbits with rfl | hpos
    · rw [← taken_eq_kraft] at hfull
      exact absurd hfull (Nat.not_succ_le_zero 0)
    · exact hpos
  obtain ⟨bits, hbits, hassigned⟩ := codeMap_spec hls
  obtain ⟨left, hleft, hpl⟩ := treeMake_ok hassigned hmax hfull Nat.one_ne_zero hpos
    (show 0 < 2 ^ 1 by decide) (Nat.zero_le _)
  obtain ⟨right, hright, hpr⟩ := treeMake_ok hassigned hmax hfull Nat.one_ne_zero hpos
    (show 1 < 2 ^ 1 by decide) (Nat.zero_le _)
  obtain ⟨h, hcompress, hcompresses⟩ := treeCompress_spec (.needBit hpl hpr)
  refine ⟨h, ?_, fun hfits => agrees_of_leads fun i hi => ?_⟩
  · rw [make_eq hone (by omega), hbits, ← hcompress]
    simp only [bind, Except.bind, hleft, hright]
  · have hfollows : Follows (lengthsAt lengths pos nlengths) 0 0 (.needBit left right) :=
      follows_needBit (treeMake_follows hassigned hfits hls hmax hpos (by decide) hleft)
        (treeMake_follows hassigned hfits hls hmax hpos (by decide) hright) fun i hi hzero => absurd hzero hi
    have hleads := hfollows i hi (Nat.zero_le _) (Nat.div_eq_of_lt (hfits.code_lt hls hi).2)
    exact hleads.compress hcompresses

/-- Where the codes leave a number free nothing is made, unless there is only one length. -/
theorem make_free (hone : nlengths ≠ 1) (hfree : kraft (lengthsAt lengths pos nlengths) maxbits < 2 ^ maxbits) :
    ∃ e, make lengths pos nlengths maxbits = .error e := by
  obtain ⟨bits, hbits, hassigned⟩ := codeMap_spec hls
  obtain ⟨e, he⟩ := @treeMake_last _ _ _ hassigned hmax hls hfree 1
  have he : treeMake bits maxbits 1 1 = .error e := he
  rw [make_eq hone (by omega), hbits]
  simp only [bind, Except.bind, he]
  cases treeMake bits maxbits 0 1 with
  | error e' => exact ⟨e', rfl⟩
  | ok left => exact ⟨e, rfl⟩

omit hmax hls in
theorem make_one (hsingle : Single (lengthsAt lengths pos 1)) :
    ∃ h, make lengths pos 1 maxbits = .ok h ∧ Agrees (lengthsAt lengths pos 1) h := by
  refine ⟨_, rfl, ?_⟩
  obtain ⟨before, behind, hls⟩ := hsingle
  have hlength := congrArg List.length hls
  rw [lengthsAt, List.length_map, List.length_range, List.length_append, List.length_cons, List.length_replicate,
    List.length_replicate] at hlength
  obtain ⟨rfl, rfl⟩ : before = 0 ∧ behind = 0 := by omega
  rw [hls]
  refine agrees_of_leads fun i hi => ?_
  obtain rfl : i = 0 := by
    have hlt := lt_length_of_isSymbol hi
    exact Nat.lt_one_iff.1 hlt
  exact Leads.needBit ⟨.found 0, fun u more hmore hw => absurd (List.append_eq_nil_iff.1 hw.symm).2 hmore⟩

end

/-- What `make` promises of the lengths: those that the RFC allows become a tree that decodes their code, and those that
are over-subscribed are rejected. -/
def MakesCode (lengths : List Nat) (pos nlengths maxbits : Nat) : Prop :=
  (Complete (lengthsAt lengths pos nlengths) maxbits ∨ Single (lengthsAt lengths pos nlengths) →
    ∃ h, make lengths pos nlengths maxbits = .ok h ∧ Agrees (lengthsAt lengths pos nlengths) h) ∧
  (OverSubscribed (lengthsAt lengths pos nlengths) maxbits → ∃ e, make lengths pos nlengths maxbits = .error e)

/-- The promise is kept exactly if the lengths are not over-subscribed, and a single code is the only length. -/
theorem makesCode_iff {lengths : List Nat} {pos nlengths maxbits : Nat} (hmax : maxbits ≤ 16)
    (hls : ∀ l ∈ lengthsAt lengths pos nlengths, l < maxbits) :
    (Complete (lengthsAt lengths pos nlengths) maxbits → ∀ w, decode (lengthsAt lengths pos nlengths) w ≠ .unused) ∧
      (MakesCode lengths pos nlengths maxbits ↔ ¬ OverSubscribed (lengthsAt lengths pos nlengths) maxbits ∧
        (Single (lengthsAt lengths pos nlengths) → nlengths = 1)) := by
  refine ⟨decode_complete, ?_⟩
  constructor
  · rintro ⟨hallowed, hover⟩
    constructor
    · intro h
      obtain ⟨e, he⟩ := hover h
      obtain ⟨t, ht, -⟩ := make_full hmax hls h.le
      rw [he] at ht
      cases ht
    · intro hsingle
      by_contra hone
      obtain ⟨t, ht, -⟩ := hallowed (.inr hsingle)
      obtain ⟨e, he⟩ := make_free hmax hls hone (kraft_single_lt hsingle maxbits)
      rw [he] at ht
      cases ht
  · rintro ⟨hnot, hsingle⟩
    constructor
    · rintro (hcomplete | h)
      · obtain ⟨t, ht, hagrees⟩ := make_full hmax hls hcomplete.ge
        exact ⟨t, ht, hagrees hcomplete.le⟩
      · obtain rfl := hsingle h
        exact make_one h
    · exact fun h => absurd h hnot

/-- `makesCode_iff` at a complete code of four symbols. -/
theorem makesCode_iff_complete : MakesCode [2, 1, 3, 3] 0 4 16 := by
  have h := (@makesCode_iff [2, 1, 3, 3] 0 4 16 (by decide) (by decide)).2
  refine h.2 ⟨by unfold OverSubscribed; decide, fun hsingle => ?_⟩
  have hlt := kraft_single_lt hsingle 16
  exact absurd hlt (by decide)

/-- The one distance code of a block that uses only its second distance is rejected, and three codes of one bit are
accepted. -/
theorem make_oneOfTwo : ¬ ∀ (lengths : List Nat) (pos nlengths maxbits : Nat), maxbits ≤ 16 →
    (∀ l ∈ lengthsAt lengths pos nlengths, l < maxbits) → MakesCode lengths pos nlengths maxbits := by
  intro h
  obtain ⟨hallowed, -⟩ := h [0, 1] 0 2 16 (by decide) (by decide)
  obtain ⟨t, ht, -⟩ := hallowed (.inr ⟨1, 0, rfl⟩)
  obtain ⟨e, he⟩ := @make_free [0, 1] 0 2 16 (by decide) (by decide) (by decide) (by decide)
  rw [he] at ht
  cases ht

end HuffTools

end EvilHaxe.Zip
