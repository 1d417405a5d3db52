/-
Going round `n` places in steps of `k`: the places fall into `gcd n k` cycles, one for each remainder.
-/
import Mathlib.Data.Nat.GCD.Basic
import Mathlib.Data.Nat.ModEq
import Mathlib.Data.Int.GCD
import Mathlib.Tactic.Ring

namespace Lib

/-- The place after `j` steps of `k` from `s`, of `n` places. -/
def place (n k s j : Nat) : Nat := (s + j * k) % n

section

variable {n k s : Nat}

theorem place_zero (hs : s < n) : place n k s 0 = s := by
  rw [place, Nat.zero_mul, Nat.add_zero, Nat.mod_eq_of_lt hs]

theorem place_succ (j : Nat) : place n k s (j + 1) = (place n k s j + k) % n := by
  rw [place, place, Nat.mod_add_mod, Nat.succ_mul, Nat.add_assoc]

theorem place_lt (hn : 0 < n) (j : Nat) : place n k s j < n := Nat.mod_lt _ hn

theorem place_mod_gcd (j : Nat) : place n k s j % n.gcd k = s % n.gcd k := by
  have hsteps : n.gcd k ∣ j * k := (Nat.gcd_dvd_right n k).mul_left j
  rw [place, Nat.mod_mod_of_dvd _ (Nat.gcd_dvd_left n k), Nat.add_mod, Nat.mod_eq_zero_of_dvd hsteps, Nat.add_zero, Nat.mod_mod]

/-- After `n / gcd n k` steps whole rounds are made. -/
theorem round_eq (n k : Nat) : n / n.gcd k * k = n * (k / n.gcd k) := by
  rw [Nat.div_mul_right_comm (Nat.gcd_dvd_left n k), Nat.mul_div_assoc _ (Nat.gcd_dvd_right n k)]

theorem place_period (hs : s < n) : place n k s (n / n.gcd k) = s := by
  rw [place, round_eq, Nat.add_mul_mod_self_left, Nat.mod_eq_of_lt hs]

/-- Places that are equal lie whole rounds apart. -/
theorem dvd_of_place_eq (hn : 0 < n) {i j : Nat} (hij : i ≤ j) (h : place n k s i = place n k s j) :
    n / n.gcd k ∣ j - i := by
  have hdvd : n ∣ (j - i) * k := by
    have hmod : s + i * k ≡ s + j * k [MOD n] := h
    have hsub := (Nat.modEq_iff_dvd' (by have := Nat.mul_le_mul_right k hij; omega)).1 hmod
    rwa [Nat.add_sub_add_left, ← Nat.sub_mul] at hsub
  have hg : 0 < n.gcd k := Nat.gcd_pos_of_pos_left k hn
  have hcoprime : Nat.Coprime (n / n.gcd k) (k / n.gcd k) := Nat.coprime_div_gcd_div_gcd hg
  refine hcoprime.dvd_of_dvd_mul_right ?_
  rw [← Nat.mul_div_assoc _ (Nat.gcd_dvd_right n k)]
  exact Nat.div_dvd_div (Nat.gcd_dvd_left n k) hdvd

theorem place_ne (hn : 0 < n) {i j : Nat} (hij : i < j) (hj : j < n / n.gcd k + i) : place n k s i ≠ place n k s j := by
  intro h
  have hle := Nat.le_of_dvd (by omega) (dvd_of_place_eq hn hij.le h)
  omega

/-- Every place with the remainder of the start is reached. -/
theorem exists_place (hk : 0 < k) (hkn : k < n) {i : Nat} (hi : i < n) (hmod : i % n.gcd k = s) :
    ∃ j < n / n.gcd k, place n k s j = i := by
  have hn : 0 < n := hk.trans hkn
  have hgk : n.gcd k ≤ k := Nat.gcd_le_right n hk
  obtain ⟨m, -, hm⟩ := Nat.exists_mul_mod_eq_gcd (show Nat.gcd k n < n by rw [Nat.gcd_comm]; omega)
  rw [Nat.gcd_comm k n] at hm
  -- `m` steps lead `gcd n k` places on
  have hreach : place n k s (m * (i / n.gcd k)) = i := by
    have hsteps : m * (i / n.gcd k) * k ≡ n.gcd k * (i / n.gcd k) [MOD n] := by
      have hone : k * m ≡ n.gcd k [MOD n] := by
        rw [Nat.ModEq, hm, Nat.mod_eq_of_lt (by omega)]
      have hall := hone.mul_right (i / n.gcd k)
      rwa [Nat.mul_comm k m, Nat.mul_assoc, Nat.mul_comm k, ← Nat.mul_assoc] at hall
    have hi' : s + n.gcd k * (i / n.gcd k) = i := by rw [← hmod, Nat.mod_add_div]
    rw [place, hsteps.add_left s, hi', Nat.mod_eq_of_lt hi]
  refine ⟨m * (i / n.gcd k) % (n / n.gcd k), Nat.mod_lt _ ?_, ?_⟩
  · exact Nat.div_pos (Nat.gcd_le_left k hn) (Nat.gcd_pos_of_pos_left k hn)
  · generalize hq : m * (i / n.gcd k) = q at hreach
    have hperiod : q % (n / n.gcd k) * k ≡ q * k [MOD n] := by
      have hsplit : q * k = q % (n / n.gcd k) * k + n * (q / (n / n.gcd k) * (k / n.gcd k)) := by
        calc q * k = (q % (n / n.gcd k) + n / n.gcd k * (q / (n / n.gcd k))) * k := by rw [Nat.mod_add_div]
          _ = q % (n / n.gcd k) * k + q / (n / n.gcd k) * (n / n.gcd k * k) := by ring
          _ = q % (n / n.gcd k) * k + n * (q / (n / n.gcd k) * (k / n.gcd k)) := by rw [round_eq]; ring
      rw [hsplit]
      exact (Nat.add_mul_mod_self_left _ _ _).symm
    rw [← hreach]
    exact hperiod.add_left s

end

end Lib
