/-
Sequences of symbols. The codes of a complete code are written one behind the other, and read back by the tree that `make`
makes of their lengths.
-/
import EvilHaxe.Lib.Delimited
import EvilHaxe.Zip.CanonicalCode

namespace EvilHaxe.Zip

open Lib Canonical HuffTools InflateImpl

/-! ## No code is the beginning of another one -/

namespace Canonical

variable {ls : List Nat} {maxbits : Nat}

theorem eq_of_codeword_isPrefix (hfits : Fits ls maxbits) (hls : ∀ l ∈ ls, l < maxbits) {i j : Nat} (hi : IsSymbol ls i)
    (hj : IsSymbol ls j) (hbegins : codeword ls j <+: codeword ls i) : j = i := by
  have hle : ls.getD j 0 ≤ ls.getD i 0 := by
    have hlength := hbegins.length_le
    rwa [codeword, codeword, length_highFirst, length_highFirst] at hlength
  have hilt := (hfits.code_lt hls hi).2
  have hjlt := (hfits.code_lt hls hj).2
  have hsum : ls.getD j 0 + (ls.getD i 0 - ls.getD j 0) = ls.getD i 0 := Nat.add_sub_cancel' hle
  have hcode : code ls j = code ls i / 2 ^ (ls.getD i 0 - ls.getD j 0) := by
    obtain ⟨u, hu⟩ := hbegins
    have hsplit := highFirst_add (ls.getD j 0) (ls.getD i 0 - ls.getD j 0) (code ls i)
    rw [hsum] at hsplit
    have hsame := (List.append_inj (hu.trans hsplit) (by simp [codeword])).1
    have hlt : code ls i / 2 ^ (ls.getD i 0 - ls.getD j 0) < 2 ^ ls.getD j 0 := by
      rw [Nat.div_lt_iff_lt_mul (Nat.two_pow_pos _), ← Nat.pow_add, hsum]
      exact hilt
    have hvalue := congrArg ofHighFirst hsame
    rwa [codeword, ofHighFirst_highFirst, ofHighFirst_highFirst, Nat.mod_eq_of_lt hjlt, Nat.mod_eq_of_lt hlt] at hvalue
  rcases hle.lt_or_eq with hlt | heq
  · have hbelow := code_not_below hlt
    have htaken := code_lt_taken hj
    omega
  · rw [heq, Nat.sub_self, Nat.pow_zero, Nat.div_one] at hcode
    exact code_inj hj hi heq hcode

/-- A code stands for its symbol, whatever follows. -/
theorem decode_codeword (hcomplete : Complete ls maxbits) (hls : ∀ l ∈ ls, l < maxbits) {i : Nat} (hi : IsSymbol ls i)
    (rest : List Bool) : decode ls (codeword ls i ++ rest) = .symbol i rest := by
  cases h : decode ls (codeword ls i ++ rest) with
  | symbol j rest' =>
    obtain ⟨hj, heq⟩ := decode_symbol h
    obtain rfl : i = j := by
      rcases List.append_eq_append_iff.1 heq with ⟨u, hu, -⟩ | ⟨u, hu, -⟩
      · exact eq_of_codeword_isPrefix hcomplete.le hls hj hi ⟨u, hu.symm⟩
      · exact (eq_of_codeword_isPrefix hcomplete.le hls hi hj ⟨u, hu.symm⟩).symm
    rw [List.append_cancel_left heq]
  | more =>
    obtain ⟨j, more, hj, hmore, heq⟩ := decode_more h
    rw [List.append_assoc] at heq
    obtain rfl := eq_of_codeword_isPrefix hcomplete.le hls hj hi ⟨_, heq.symm⟩
    exact absurd (List.append_eq_nil_iff.1 (List.self_eq_append_right.1 heq)).2 hmore
  | unused => exact absurd h (decode_complete hcomplete _)

/-- A code that is cut stands for nothing. -/
theorem decode_cut (hcomplete : Complete ls maxbits) (hls : ∀ l ∈ ls, l < maxbits) {i : Nat} (hi : IsSymbol ls i)
    {w more : List Bool} (hmore : more ≠ []) (hw : codeword ls i = w ++ more) : decode ls w = .more := by
  cases h : decode ls w with
  | symbol j rest =>
    obtain ⟨hj, rfl⟩ := decode_symbol h
    rw [List.append_assoc] at hw
    obtain rfl := eq_of_codeword_isPrefix hcomplete.le hls hi hj ⟨_, hw.symm⟩
    exact absurd (List.append_eq_nil_iff.1 (List.self_eq_append_right.1 hw)).2 hmore
  | more => rfl
  | unused => exact absurd h (decode_complete hcomplete w)

end Canonical

/-! ## Sequences -/

namespace InflateImpl

/-- One symbol after the other. -/
def applyHuffmanTimes (h : Huffman) : Nat → InflateImpl → Except Thrown (List Int × InflateImpl)
  | 0, s => .ok ([], s)
  | n + 1, s => do
    let (i, s) ← applyHuffman h s
    let (is, s) ← applyHuffmanTimes h n s
    return (i :: is, s)

/-- The bits that are left to read. -/
def BitsAhead (s : InflateImpl) (bits : List Bool) : Prop := s.WF ∧ s.ahead = bits

theorem applyHuffman_delimited {ls : List Nat} {maxbits i : Nat} {h : Huffman} (hcomplete : Complete ls maxbits)
    (hls : ∀ l ∈ ls, l < maxbits) (hagrees : Agrees ls h) (hi : IsSymbol ls i) :
    Delimited BitsAhead .eof (codeword ls i) (i : Int) (applyHuffman h) where
  takes s rest hs := by
    have hread := hagrees s hs.1
    rwa [hs.2, decode_codeword hcomplete hls hi] at hread
  cut s front more hs hmore hw := by
    have hread := hagrees s hs.1
    rwa [hs.2, decode_cut hcomplete hls hi hmore hw] at hread

theorem applyHuffmanTimes_delimited {ls is : List Nat} {maxbits : Nat} {h : Huffman} (hcomplete : Complete ls maxbits)
    (hls : ∀ l ∈ ls, l < maxbits) (hagrees : Agrees ls h) (his : ∀ i ∈ is, IsSymbol ls i) :
    Delimited BitsAhead .eof (is.flatMap (codeword ls)) (is.map Int.ofNat) (applyHuffmanTimes h is.length) := by
  induction is with
  | nil => exact .nil
  | cons i is ih =>
    obtain ⟨hi, his⟩ := List.forall_mem_cons.1 his
    exact (applyHuffman_delimited hcomplete hls hagrees hi).cons (ih his)

/-- `make` of the lengths of a complete code: the tree reads every sequence of symbols from its codes and leaves what follows
them, and throws `Eof` on every sequence that is cut. -/
theorem make_codewords {lengths : List Nat} {pos nlengths maxbits : Nat} (hmax : maxbits ≤ 16)
    (hls : ∀ l ∈ lengthsAt lengths pos nlengths, l < maxbits)
    (hcomplete : Complete (lengthsAt lengths pos nlengths) maxbits) :
    ∃ h, make lengths pos nlengths maxbits = .ok h ∧
      ∀ is : List Nat, (∀ i ∈ is, IsSymbol (lengthsAt lengths pos nlengths) i) →
        Delimited BitsAhead .eof (is.flatMap (codeword (lengthsAt lengths pos nlengths))) (is.map Int.ofNat)
          (applyHuffmanTimes h is.length) := by
  obtain ⟨h, hmake, hagrees⟩ := make_full hmax hls hcomplete.ge
  exact ⟨h, hmake, fun is => applyHuffmanTimes_delimited hcomplete hls (hagrees hcomplete.le)⟩

/-- `make_codewords` at a code of four symbols: the bits of a byte are three of them. -/
theorem make_codewords_complete : ∃ h s', make [2, 1, 3, 3] 0 4 16 = .ok h ∧
    applyHuffmanTimes h 3 ⟨0, 0, [0b11110110]⟩ = .ok ([1, 2, 3], s') ∧ s'.ahead = [true] := by
  obtain ⟨h, hmake, hreads⟩ := @make_codewords [2, 1, 3, 3] 0 4 16 (by decide) (by decide) (by unfold Complete; decide)
  obtain ⟨s', htimes, -, hahead⟩ := (hreads [1, 2, 3] (by decide)).takes ⟨0, 0, [0b11110110]⟩ [true] ⟨⟨by decide⟩, by decide⟩
  exact ⟨h, s', hmake, htimes, hahead⟩

end InflateImpl

end EvilHaxe.Zip
