import Mathlib.Data.Nat.Digits.Lemmas

/-! # Positional notation with leading zeros

A number written most significant digit first, and behind a given number
of zeros. The two together determine the digits and are determined by
them, so text in one base and bytes in another can be exchanged. -/

namespace Radix

open List Nat

/-- The number that the digits spell. -/
def value (b : Nat) (vs : List Nat) : Nat := vs.foldl (fun n v => n * b + v) 0

def leadingZeros (vs : List Nat) : Nat := (vs.takeWhile (· == 0)).length

/-- `z` zeros, then the digits of `n` without any. -/
def spell (b z n : Nat) : List Nat := List.replicate z 0 ++ (Nat.digits b n).reverse

theorem value_eq_ofDigits (b : Nat) (vs : List Nat) : value b vs = ofDigits b vs.reverse := by
  unfold value
  rw [ofDigits_eq_foldr, foldr_reverse]
  congr 1
  funext n v
  simp only [cast_id]
  ring

theorem value_cons (b v : Nat) (vs : List Nat) :
    value b (v :: vs) = v * b ^ vs.length + value b vs := by
  rw [value_eq_ofDigits, value_eq_ofDigits, reverse_cons, ofDigits_append,
    ofDigits_singleton, length_reverse]
  ring

theorem value_lt {b : Nat} (hb : 1 < b) {vs : List Nat} (h : ∀ v ∈ vs, v < b) :
    value b vs < b ^ vs.length := by
  rw [value_eq_ofDigits, ← length_reverse]
  apply ofDigits_lt_base_pow_length hb
  intro v hv
  exact h v (mem_reverse.mp hv)

theorem value_zeros_append (b z : Nat) (vs : List Nat) :
    value b (replicate z 0 ++ vs) = value b vs := by
  induction z with
  | zero => rfl
  | succ z ih =>
    rw [← ih, replicate_succ, cons_append]
    unfold value
    rw [foldl_cons, zero_mul, zero_add]

theorem value_spell {b : Nat} (z n : Nat) : value b (spell b z n) = n := by
  unfold spell
  rw [value_zeros_append, value_eq_ofDigits, reverse_reverse, ofDigits_digits]

theorem leadingZeros_zeros_append {vs : List Nat} (z : Nat) (h : leadingZeros vs = 0) :
    leadingZeros (replicate z 0 ++ vs) = z := by
  induction z with
  | zero => exact h
  | succ z ih =>
    unfold leadingZeros at ih ⊢
    rw [replicate_succ, cons_append, takeWhile_cons_of_pos (by simp), length_cons, ih]

theorem leadingZeros_spell (b z n : Nat) : leadingZeros (spell b z n) = z := by
  apply leadingZeros_zeros_append
  cases hdigits : (digits b n).reverse with
  | nil => rfl
  | cons d ds =>
    have hne : digits b n ≠ [] := by
      intro hnil
      rw [hnil] at hdigits
      cases hdigits
    have hn : n ≠ 0 := by
      rintro rfl
      exact hne (digits_zero b)
    have hd : (digits b n).getLast hne = d := by
      rw [← head_reverse (by simpa using hne)]
      simp [hdigits]
    have hd0 : d ≠ 0 := hd ▸ getLast_digit_ne_zero b hn
    unfold leadingZeros
    rw [takeWhile_cons_of_neg (by simpa using hd0)]
    rfl

/-- Zeros and number are determined by the digits. -/
theorem spell_inj {b z z' n n' : Nat} (h : spell b z n = spell b z' n') : z = z' ∧ n = n' := by
  constructor
  · rw [← leadingZeros_spell b z n, h, leadingZeros_spell]
  · rw [← value_spell (b := b) z n, h, value_spell]

/-- Digits are spelled by their zeros and their number. -/
theorem spell_value {b : Nat} (hb : 1 < b) {vs : List Nat} (h : ∀ v ∈ vs, v < b) :
    spell b (leadingZeros vs) (value b vs) = vs := by
  have hzeros : vs.takeWhile (· == 0) = replicate (leadingZeros vs) 0 := by
    apply eq_replicate_of_mem
    intro v hv
    exact beq_iff_eq.mp (all_eq_true.mp all_takeWhile v hv)
  have hsplit : vs = replicate (leadingZeros vs) 0 ++ vs.dropWhile (· == 0) := by
    rw [← hzeros, takeWhile_append_dropWhile]
  have hvalue : value b vs = value b (vs.dropWhile (· == 0)) := by
    conv_lhs => rw [hsplit]
    exact value_zeros_append b _ _
  have hdigits : digits b (value b vs) = (vs.dropWhile (· == 0)).reverse := by
    rw [hvalue, value_eq_ofDigits]
    apply digits_ofDigits b hb
    · intro v hv
      exact h v (dropWhile_subset _ (mem_reverse.mp hv))
    · intro hne
      -- The last digit, read backwards, is the first that is not zero.
      have hne' : vs.dropWhile (· == 0) ≠ [] := by simpa using hne
      rw [getLast_reverse]
      intro hzero
      have hhead := head_dropWhile_not (· == 0) hne'
      rw [hzero] at hhead
      cases hhead
  unfold spell
  rw [hdigits, reverse_reverse]
  exact hsplit.symm

theorem spell_lt {b : Nat} (hb : 1 < b) (z n : Nat) : ∀ v ∈ spell b z n, v < b := by
  intro v hv
  obtain hzero | hdigit := mem_append.mp hv
  · rw [eq_of_mem_replicate hzero]
    omega
  · exact digits_lt_base hb (mem_reverse.mp hdigit)

/-- The first digit of a number of which it is the leading part. -/
theorem head_spell {b : Nat} (hb : 1 < b) {k d n : Nat} (hd : 0 < d) (hdb : d < b)
    (hlow : d * b ^ k ≤ n) (hhigh : n < (d + 1) * b ^ k) : (spell b 0 n).head? = some d := by
  have hlt := spell_lt hb 0 n
  have hvalue := value_spell (b := b) 0 n
  have hzeros := leadingZeros_spell b 0 n
  have hpos : 0 < b ^ k := Nat.pow_pos (by omega)
  cases hspell : spell b 0 n with
  | nil =>
    rw [hspell] at hvalue
    have hn : n = 0 := hvalue.symm
    have hone := Nat.mul_le_mul hd hpos
    omega
  | cons v vs =>
    rw [hspell] at hlt hvalue hzeros
    have hv : v < b := hlt v mem_cons_self
    have hrest := value_lt hb fun x hx => hlt x (mem_cons_of_mem v hx)
    rw [value_cons] at hvalue
    have hne : v ≠ 0 := by
      intro hzero
      rw [hzero] at hzeros
      simp [leadingZeros] at hzeros
    -- The number of digits is fixed by the powers of the base around `n`.
    have hlen : vs.length = k := by
      have hlower : b ^ vs.length ≤ n := by
        have := Nat.mul_le_mul_right (b ^ vs.length) (Nat.pos_of_ne_zero hne)
        omega
      have hupper : n < b ^ (vs.length + 1) := by
        have := Nat.mul_le_mul_right (b ^ vs.length) (succ_le_of_lt hv)
        rw [succ_mul] at this
        rw [pow_succ, mul_comm]
        omega
      have hlower' : b ^ k ≤ n := by
        have := Nat.mul_le_mul_right (b ^ k) hd
        omega
      have hupper' : n < b ^ (k + 1) := by
        have := Nat.mul_le_mul_right (b ^ k) (succ_le_of_lt hdb)
        rw [pow_succ, mul_comm (b ^ k)]
        exact Nat.lt_of_lt_of_le hhigh this
      have h₁ := (Nat.pow_lt_pow_iff_right hb).mp (Nat.lt_of_le_of_lt hlower hupper')
      have h₂ := (Nat.pow_lt_pow_iff_right hb).mp (Nat.lt_of_le_of_lt hlower' hupper)
      omega
    rw [hlen] at hvalue hrest
    have hdiv : n / b ^ k = v := by
      rw [← hvalue, mul_comm, mul_add_div hpos, div_eq_of_lt hrest, add_zero]
    have hdiv' : n / b ^ k = d :=
      Nat.div_eq_of_lt_le (by rwa [mul_comm] at hlow ⊢) (by rwa [mul_comm] at hhigh ⊢)
    rw [head?_cons, ← hdiv, hdiv']

end Radix
