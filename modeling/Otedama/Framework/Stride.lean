import Mathlib.Data.Nat.ModEq
import Mathlib.Tactic.Ring

/-! # Strided counters

Several parties share a number line: party `i` visits `i`, `i + n`,
`i + 2 * n` and so on. Visits are numbered by unbounded naturals, while
a program keeps a 32-bit counter and notices when it wraps.

* `carry` recovers the unbounded value from one step of the counter.
* `visit_unique` and `exists_visit` say that the parties partition the
  line.
* `residue_of_modEq` says what survives when only the counter is seen. -/

namespace Stride

/-- One step of a 32-bit counter: the new value and the wrap together give
the exact sum. -/
theorem carry (x step : UInt32) :
    (x + step).toNat + 2 ^ 32 * (if x + step < x then 1 else 0) = x.toNat + step.toNat := by
  have hx := x.toNat_lt
  have hs := step.toNat_lt
  have hadd : (x + step).toNat = (x.toNat + step.toNat) % 2 ^ 32 := UInt32.toNat_add x step
  have hlt : x + step < x ↔ (x + step).toNat < x.toNat := UInt32.lt_iff_toNat_lt
  by_cases hwrap : x.toNat + step.toNat < 2 ^ 32
  · rw [Nat.mod_eq_of_lt hwrap] at hadd
    rw [if_neg (by rw [hlt]; omega)]
    omega
  · rw [if_pos (by rw [hlt]; omega)]
    omega

/-- Two visits of the same number are the same visit of the same party. -/
theorem visit_unique {n i j k l : Nat} (hi : i < n) (hj : j < n) (h : i + k * n = j + l * n) :
    i = j ∧ k = l := by
  have hij : i = j := by
    have hmod : (i + k * n) % n = (j + l * n) % n := by rw [h]
    rwa [Nat.add_mul_mod_self_right, Nat.add_mul_mod_self_right, Nat.mod_eq_of_lt hi,
      Nat.mod_eq_of_lt hj] at hmod
  subst hij
  have hmul : k * n = l * n := by omega
  exact ⟨rfl, Nat.eq_of_mul_eq_mul_right (by omega) hmul⟩

/-- Every number is visited. -/
theorem exists_visit {n : Nat} (hn : 0 < n) (p : Nat) : ∃ i k, i < n ∧ i + k * n = p :=
  ⟨p % n, p / n, Nat.mod_lt p hn, by rw [mul_comm]; exact Nat.mod_add_div p n⟩

/-- If the step divides the modulus, the residue of the start is never lost. -/
theorem residue_of_modEq {n m i j k l : Nat} (hdvd : n ∣ m)
    (h : (i + k * n) % m = (j + l * n) % m) : i % n = j % n := by
  have hmod : (i + k * n) % n = (j + l * n) % n := Nat.ModEq.of_dvd hdvd h
  rwa [Nat.add_mul_mod_self_right, Nat.add_mul_mod_self_right] at hmod

end Stride
