import Otedama.Framework.BitString

/-! # Linear checksums

A shift register over exclusive or: each symbol is shifted in at the low
end and what is shifted out at the high end is fed back linearly. As
many symbols as the register has cells can bring it to any state, and
the symbols that do are determined by the state. That is what makes a
checksum of that many symbols both possible and unique.

A wrong symbol changes the register by an amount that depends only on the
symbols and on how many follow. If no state but zero is shifted to zero,
the change never dies out. -/

namespace Checksum

open BitString List

/-! ## Cells -/

/-- A number as `k` cells of `w` bits, most significant first. -/
def cells (w : Nat) : Nat → Nat → List Nat
  | 0, _ => []
  | k + 1, n => (n >>> (w * k)) % 2 ^ w :: cells w k n

@[simp] theorem length_cells (w k n : Nat) : (cells w k n).length = k := by
  induction k with
  | zero => rfl
  | succ k ih => rw [cells, length_cons, ih]

theorem lt_of_mem_cells {w k n v : Nat} (h : v ∈ cells w k n) : v < 2 ^ w := by
  induction k with
  | zero => cases h
  | succ k ih =>
    rw [cells, mem_cons] at h
    obtain rfl | htail := h
    · exact Nat.mod_lt _ (Nat.two_pow_pos w)
    · exact ih htail

theorem allBits_cells (w k n : Nat) : allBits w (cells w k n) = bits (w * k) n := by
  induction k with
  | zero => rfl
  | succ k ih =>
    have hhead : bits w ((n >>> (w * k)) % 2 ^ w) = bits w (n >>> (w * k)) := by
      apply bits_congr
      intro i hi
      simp [Nat.testBit_mod_two_pow, hi]
    rw [cells, allBits_cons, hhead, ih, Nat.mul_succ, add_comm, bits_add]

/-- The number whose cells are the symbols. -/
def pack (w : Nat) (vs : List Nat) : Nat := vs.foldl (fun n v => n <<< w ^^^ v) 0

theorem pack_append_singleton (w : Nat) (vs : List Nat) (v : Nat) :
    pack w (vs ++ [v]) = pack w vs <<< w ^^^ v := by
  simp [pack]

theorem pack_lt {w : Nat} {vs : List Nat} (h : ∀ v ∈ vs, v < 2 ^ w) :
    pack w vs < 2 ^ (w * vs.length) := by
  induction vs using reverseRecOn with
  | nil => simp [pack]
  | append_singleton vs v ih =>
    have hvs : pack w vs < 2 ^ (w * vs.length) := ih fun x hx => h x (by simp [hx])
    have hv : v < 2 ^ w := h v (by simp)
    rw [pack_append_singleton, length_append, length_singleton, Nat.mul_succ]
    apply Nat.xor_lt_two_pow
    · rw [Nat.shiftLeft_eq, Nat.pow_add]
      exact Nat.mul_lt_mul_of_pos_right hvs (Nat.two_pow_pos w)
    · exact lt_of_lt_of_le hv (Nat.pow_le_pow_right (by decide) (Nat.le_add_left _ _))

theorem bits_pack {w : Nat} {vs : List Nat} (h : ∀ v ∈ vs, v < 2 ^ w) :
    bits (w * vs.length) (pack w vs) = allBits w vs := by
  induction vs using reverseRecOn with
  | nil => simp [bits]
  | append_singleton vs v ih =>
    have hv : v < 2 ^ w := h v (by simp)
    have hhigh : (pack w vs <<< w ^^^ v) >>> w = pack w vs := by
      rw [Nat.shiftRight_xor_distrib, Nat.shiftLeft_shiftRight, Nat.shiftRight_eq_div_pow,
        Nat.div_eq_of_lt hv, Nat.xor_zero]
    have hlow : bits w (pack w vs <<< w ^^^ v) = bits w v := by
      apply bits_congr
      intro i hi
      simp [Nat.testBit_shiftLeft, Nat.not_le.mpr hi]
    rw [pack_append_singleton, length_append, length_singleton, Nat.mul_succ, bits_add,
      hhigh, hlow, ih fun x hx => h x (by simp [hx]), allBits_append, allBits_cons, allBits_nil,
      append_nil]

/-! ## The register -/

/-- A register of `k + 1` cells of `w` bits. -/
structure Register (w k : Nat) where
  shift : Nat → Nat
  shift_xor : ∀ a b, shift (a ^^^ b) = shift a ^^^ shift b
  /-- Nothing is fed back while the highest cell is empty. -/
  shift_small : ∀ a, a < 2 ^ (w * k) → shift a = a <<< w
  shift_lt : ∀ a, a < 2 ^ (w * (k + 1)) → shift a < 2 ^ (w * (k + 1))

namespace Register

variable {w k : Nat} (r : Register w k)

/-- Shift in one symbol. -/
def step (c v : Nat) : Nat := r.shift c ^^^ v

/-- Shift in the symbols one after the other. -/
def run (c : Nat) (vs : List Nat) : Nat := vs.foldl r.step c

theorem run_append (c : Nat) (us vs : List Nat) : r.run c (us ++ vs) = r.run (r.run c us) vs :=
  foldl_append

theorem run_append_singleton (c : Nat) (vs : List Nat) (v : Nat) :
    r.run c (vs ++ [v]) = r.shift (r.run c vs) ^^^ v := by
  rw [run_append]
  rfl

/-- The register is the exclusive or of where it comes from and what is
shifted in. -/
theorem run_eq_xor (c : Nat) (vs : List Nat) :
    r.run c vs = r.run c (replicate vs.length 0) ^^^ r.run 0 vs := by
  induction vs using reverseRecOn with
  | nil => simp [run]
  | append_singleton vs v ih =>
    rw [run_append_singleton, ih, length_append, length_singleton,
      replicate_succ', run_append_singleton, run_append_singleton, r.shift_xor,
      Nat.xor_zero, Nat.xor_assoc]

theorem run_zero {vs : List Nat} (hlen : vs.length ≤ k + 1) (h : ∀ v ∈ vs, v < 2 ^ w) :
    r.run 0 vs = pack w vs := by
  induction vs using reverseRecOn with
  | nil => rfl
  | append_singleton vs v ih =>
    rw [length_append, length_singleton] at hlen
    have hvs : ∀ x ∈ vs, x < 2 ^ w := fun x hx => h x (by simp [hx])
    have hsmall : pack w vs < 2 ^ (w * k) :=
      lt_of_lt_of_le (pack_lt hvs)
        (Nat.pow_le_pow_right (by decide) (Nat.mul_le_mul_left w (by omega)))
    rw [run_append_singleton, ih (by omega) hvs, r.shift_small _ hsmall, pack_append_singleton]

theorem run_lt {c : Nat} (hc : c < 2 ^ (w * (k + 1))) {vs : List Nat} (h : ∀ v ∈ vs, v < 2 ^ w) :
    r.run c vs < 2 ^ (w * (k + 1)) := by
  induction vs using reverseRecOn with
  | nil => exact hc
  | append_singleton vs v ih =>
    have hv : v < 2 ^ w := h v (by simp)
    rw [run_append_singleton]
    apply Nat.xor_lt_two_pow
    · exact r.shift_lt _ (ih fun x hx => h x (by simp [hx]))
    · exact lt_of_lt_of_le hv (Nat.pow_le_pow_right (by decide) (Nat.le_mul_of_pos_right w (by simp)))

/-- The symbols that bring the register from `c` to `t`. -/
def checksum (c t : Nat) : List Nat :=
  cells w (k + 1) (r.run c (List.replicate (k + 1) 0) ^^^ t)

/-- The checksum, and nothing but the checksum, brings the register to `t`. -/
theorem run_eq_iff (hw : 0 < w) {c t : Nat} (hc : c < 2 ^ (w * (k + 1)))
    (ht : t < 2 ^ (w * (k + 1))) {vs : List Nat} (hlen : vs.length = k + 1)
    (h : ∀ v ∈ vs, v < 2 ^ w) : r.run c vs = t ↔ vs = r.checksum c t := by
  have hzero : r.run c (replicate (k + 1) 0) < 2 ^ (w * (k + 1)) := by
    apply r.run_lt hc
    intro v hv
    rw [eq_of_mem_replicate hv]
    exact Nat.two_pow_pos w
  have hpack : pack w vs < 2 ^ (w * (k + 1)) := hlen ▸ pack_lt h
  have hbits : bits (w * (k + 1)) (pack w vs) = allBits w vs := hlen ▸ bits_pack h
  rw [run_eq_xor, run_zero r hlen.le h, hlen]
  unfold checksum
  generalize r.run c (replicate (k + 1) 0) = z at hzero ⊢
  have hxor : z ^^^ pack w vs = t ↔ pack w vs = z ^^^ t := by
    constructor
    · rintro rfl
      rw [← Nat.xor_assoc, Nat.xor_self, Nat.zero_xor]
    · intro heq
      rw [heq, ← Nat.xor_assoc, Nat.xor_self, Nat.zero_xor]
  rw [hxor]
  constructor
  · intro heq
    apply allBits_inj hw h fun n hn => lt_of_mem_cells hn
    rw [allBits_cells, ← heq, hbits]
  · intro heq
    apply bits_inj hpack (Nat.xor_lt_two_pow hzero ht)
    rw [hbits, heq, allBits_cells]

/-! ## Wrong symbols -/

/-- Two registers that take in the same symbols. -/
theorem run_xor_run (c d : Nat) (vs : List Nat) :
    r.run c vs ^^^ r.run d vs = r.shift^[vs.length] (c ^^^ d) := by
  induction vs generalizing c d with
  | nil => rfl
  | cons v vs ih =>
    have hstep : r.step c v ^^^ r.step d v = r.shift (c ^^^ d) := by
      rw [step, step, r.shift_xor, Nat.xor_comm (r.shift d), ← Nat.xor_assoc,
        Nat.xor_assoc (r.shift c), Nat.xor_self, Nat.xor_zero]
    show r.run (r.step c v) vs ^^^ r.run (r.step d v) vs = _
    rw [ih, hstep, length_cons, Function.iterate_succ_apply]

/-- What one wrong symbol does to the register. -/
theorem run_replace (c : Nat) (us : List Nat) (x y : Nat) (vs : List Nat) :
    r.run c (us ++ x :: vs) ^^^ r.run c (us ++ y :: vs) = r.shift^[vs.length] (x ^^^ y) := by
  have hstep : ∀ d, r.step d x ^^^ r.step d y = x ^^^ y := by
    intro d
    rw [step, step, Nat.xor_comm (r.shift d) x, Nat.xor_assoc, ← Nat.xor_assoc (r.shift d),
      Nat.xor_self, Nat.zero_xor]
  rw [run_append, run_append]
  show r.run (r.step _ x) vs ^^^ r.run (r.step _ y) vs = _
  rw [run_xor_run, hstep]

/-- Nothing but zero is shifted to zero. -/
def Nonsingular : Prop := ∀ a, a < 2 ^ (w * (k + 1)) → r.shift a = 0 → a = 0

/-- A change of the register never dies out. -/
theorem Nonsingular.iterate_ne_zero {r : Register w k} (h : r.Nonsingular) {a : Nat}
    (ha : a < 2 ^ (w * (k + 1))) (hne : a ≠ 0) (n : Nat) : r.shift^[n] a ≠ 0 := by
  induction n generalizing a with
  | zero => exact hne
  | succ n ih =>
    rw [Function.iterate_succ_apply]
    exact ih (r.shift_lt a ha) (mt (h a ha) hne)

end Register

/-! ## One position -/

/-- Equal, or different in one position. -/
def OneAtMost {α : Type} (s t : List α) : Prop :=
  s = t ∨ ∃ pre x y post, x ≠ y ∧ s = pre ++ x :: post ∧ t = pre ++ y :: post

theorem OneAtMost.symm {α : Type} {s t : List α} (h : OneAtMost s t) : OneAtMost t s := by
  obtain rfl | ⟨pre, x, y, post, hxy, hs, ht⟩ := h
  · exact .inl rfl
  · exact .inr ⟨pre, y, x, post, hxy.symm, ht, hs⟩

theorem OneAtMost.map {α β : Type} (f : α → β) {s t : List α} (h : OneAtMost s t) :
    OneAtMost (s.map f) (t.map f) := by
  obtain rfl | ⟨pre, x, y, post, -, rfl, rfl⟩ := h
  · exact .inl rfl
  · rw [map_append, map_append, map_cons, map_cons]
    by_cases hxy : f x = f y
    · exact .inl (by rw [hxy])
    · exact .inr ⟨_, _, _, _, hxy, rfl, rfl⟩

theorem OneAtMost.drop {α : Type} (n : Nat) {s t : List α} (h : OneAtMost s t) :
    OneAtMost (s.drop n) (t.drop n) := by
  obtain rfl | ⟨pre, x, y, post, hxy, rfl, rfl⟩ := h
  · exact .inl rfl
  · by_cases hn : n ≤ pre.length
    · rw [drop_append_of_le_length hn, drop_append_of_le_length hn]
      exact .inr ⟨_, _, _, _, hxy, rfl, rfl⟩
    · -- The position is dropped with what stands before it.
      obtain ⟨j, rfl⟩ : ∃ j, n = pre.length + (j + 1) := ⟨n - pre.length - 1, by omega⟩
      rw [drop_append, drop_append]
      exact .inl (by simp)

/-- Lists that differ in exactly one position. -/
theorem oneAtMost_of_existsUnique {α : Type} {s t : List α} (hlen : s.length = t.length)
    (h : ∃! i : Nat, s[i]? ≠ t[i]?) : OneAtMost s t := by
  obtain ⟨i, hi, honly⟩ := h
  have hsame : ∀ j, j ≠ i → s[j]? = t[j]? := by
    intro j hj
    by_contra hne
    exact hj (honly j hne)
  have hlt : i < s.length := by
    by_contra hge
    apply hi
    rw [getElem?_eq_none (by omega), getElem?_eq_none (by omega)]
  have hlt' : i < t.length := hlen ▸ hlt
  have htake : s.take i = t.take i := by
    apply ext_getElem?
    intro j
    rw [getElem?_take, getElem?_take]
    split
    · exact hsame j (by omega)
    · rfl
  have hdrop : s.drop (i + 1) = t.drop (i + 1) := by
    apply ext_getElem?
    intro j
    rw [getElem?_drop, getElem?_drop]
    exact hsame _ (by omega)
  refine .inr ⟨s.take i, s[i], t[i], s.drop (i + 1), ?_, ?_, ?_⟩
  · intro heq
    apply hi
    rw [getElem?_eq_getElem hlt, getElem?_eq_getElem hlt', heq]
  · rw [← drop_eq_getElem_cons hlt, take_append_drop]
  · rw [htake, hdrop, ← drop_eq_getElem_cons hlt', take_append_drop]

end Checksum
