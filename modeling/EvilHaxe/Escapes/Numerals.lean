/-
Numbers as OCaml reads them: digits of a base, with separators that are skipped after the first digit.
-/
import EvilHaxe.ParserEntry.Eval

namespace EvilHaxe.Escapes

open EvilHaxe.ParserEntry

def IsDigit (base : Nat) (c : Char) : Prop := (digitBelow base c).isSome = true

instance (base : Nat) (c : Char) : Decidable (IsDigit base c) := inferInstanceAs (Decidable (_ = true))

/-- The number that digits denote, after those with value `acc`. -/
def numeralFrom (base acc : Nat) (ds : List Char) : Nat :=
  ds.foldl (fun n d => base * n + (digitBelow base d).getD 0) acc

def numeral (base : Nat) (ds : List Char) : Nat := numeralFrom base 0 ds

/-! ## Reading digits -/

theorem digit_ne_separator {base : Nat} {c : Char} (h : IsDigit base c) : c ≠ '_' := by
  rintro rfl
  unfold IsDigit digitBelow at h
  have hnone : digitValue '_' = none := by decide
  rw [hnone] at h
  cases h

theorem digits_eq {base : Nat} : ∀ {ds : List Char} (acc : Nat), (∀ d ∈ ds, IsDigit base d) →
    digits base acc ds = some (numeralFrom base acc ds)
  | [], _, _ => rfl
  | d :: ds, acc, h => by
    have hd : IsDigit base d := h d List.mem_cons_self
    obtain ⟨v, hv⟩ := Option.isSome_iff_exists.1 hd
    have ih := digits_eq (base * acc + v) fun d hd => h d (List.mem_cons_of_mem _ hd)
    rw [digits, if_neg (digit_ne_separator hd), hv]
    simp only [Option.bind_eq_bind, Option.bind_some, ih, numeralFrom, List.foldl_cons, hv, Option.getD_some]

theorem isDigit_of_digits {base : Nat} : ∀ {ds : List Char} (acc : Nat), '_' ∉ ds →
    (digits base acc ds).isSome = true → ∀ d ∈ ds, IsDigit base d
  | [], _, _, _, d, hd => by cases hd
  | d :: ds, acc, hsep, h, d', hd' => by
    rw [List.mem_cons, not_or] at hsep
    rw [digits, if_neg (Ne.symm hsep.1)] at h
    cases hv : digitBelow base d with
    | none =>
      rw [hv] at h
      cases h
    | some v =>
      rw [hv] at h
      rcases List.mem_cons.1 hd' with rfl | hmem
      · unfold IsDigit
        rw [hv]
        rfl
      · exact isDigit_of_digits _ hsep.2 h d' hmem

theorem natOfChars_eq {base : Nat} {ds : List Char} (hne : ds ≠ []) (h : ∀ d ∈ ds, IsDigit base d) :
    natOfChars base ds = some (numeral base ds) := by
  cases ds with
  | nil => exact absurd rfl hne
  | cons d ds =>
    obtain ⟨v, hv⟩ := Option.isSome_iff_exists.1 (h d List.mem_cons_self)
    have hrest := digits_eq v fun d hd => h d (List.mem_cons_of_mem _ hd)
    rw [natOfChars, hv]
    simp only [Option.bind_eq_bind, Option.bind_some, hrest, numeral, numeralFrom, List.foldl_cons, hv,
      Option.getD_some, Nat.mul_zero, Nat.zero_add]

theorem isDigit_of_natOfChars {base : Nat} {ds : List Char} (hsep : '_' ∉ ds) (h : (natOfChars base ds).isSome = true) :
    ds ≠ [] ∧ ∀ d ∈ ds, IsDigit base d := by
  cases ds with
  | nil => cases h
  | cons d ds =>
    refine ⟨List.cons_ne_nil _ _, fun d' hd' => ?_⟩
    rw [List.mem_cons, not_or] at hsep
    rw [natOfChars] at h
    cases hv : digitBelow base d with
    | none =>
      rw [hv] at h
      cases h
    | some v =>
      rw [hv] at h
      rcases List.mem_cons.1 hd' with rfl | hmem
      · unfold IsDigit
        rw [hv]
        rfl
      · exact isDigit_of_digits v hsep.2 h d' hmem

theorem numeralFrom_lt {base : Nat} (hbase : 0 < base) : ∀ (ds : List Char) (acc : Nat),
    numeralFrom base acc ds < (acc + 1) * base ^ ds.length
  | [], acc => by simp [numeralFrom]
  | d :: ds, acc => by
    have hv : (digitBelow base d).getD 0 < base := by
      unfold digitBelow
      cases hd : (digitValue d).filter (· < base) with
      | none => exact hbase
      | some v =>
        rw [Option.filter_eq_some_iff] at hd
        exact of_decide_eq_true hd.2
    have ih := numeralFrom_lt hbase ds (base * acc + (digitBelow base d).getD 0)
    have hle : base * acc + (digitBelow base d).getD 0 + 1 ≤ (acc + 1) * base := by
      rw [Nat.add_mul, Nat.one_mul, Nat.mul_comm acc]
      omega
    calc numeralFrom base acc (d :: ds)
        = numeralFrom base (base * acc + (digitBelow base d).getD 0) ds := rfl
      _ < (base * acc + (digitBelow base d).getD 0 + 1) * base ^ ds.length := ih
      _ ≤ (acc + 1) * base * base ^ ds.length := Nat.mul_le_mul_right _ hle
      _ = (acc + 1) * base ^ (d :: ds).length := by rw [List.length_cons, Nat.pow_succ', Nat.mul_assoc]

theorem numeral_lt {base : Nat} (hbase : 0 < base) (ds : List Char) : numeral base ds < base ^ ds.length := by
  have h := numeralFrom_lt hbase ds 0
  rwa [Nat.zero_add, Nat.one_mul] at h

/-- Separators after the first digit do not count. -/
theorem digits_filter (base : Nat) : ∀ (ds : List Char) (acc : Nat),
    digits base acc (ds.filter (· ≠ '_')) = digits base acc ds
  | [], _ => rfl
  | d :: ds, acc => by
    by_cases hd : d = '_'
    · subst hd
      rw [List.filter_cons_of_neg (by decide), digits_filter base ds acc, digits, if_pos rfl]
    · rw [List.filter_cons_of_pos (by simpa using hd), digits, digits, if_neg hd, if_neg hd]
      cases digitBelow base d with
      | none => rfl
      | some v => exact digits_filter base ds (base * acc + v)

end EvilHaxe.Escapes
