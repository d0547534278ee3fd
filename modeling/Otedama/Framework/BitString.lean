import Mathlib.Data.Nat.Bitwise
import Mathlib.Data.List.Induction

/-! # Strings of bits

The `w` low-order bits of a number, most significant first. Numbers that
are regrouped from one width to another keep their string of bits. -/

namespace BitString

open List Nat

/-- The `w` low-order bits of `n`, most significant first. -/
def bits : Nat → Nat → List Bool
  | 0, _ => []
  | w + 1, n => n.testBit w :: bits w n

@[simp] theorem length_bits (w n : Nat) : (bits w n).length = w := by
  induction w with
  | zero => rfl
  | succ w ih => rw [bits, length_cons, ih]

theorem getElem?_bits {w i : Nat} (h : i < w) (n : Nat) :
    (bits w n)[i]? = some (n.testBit (w - 1 - i)) := by
  induction w generalizing i with
  | zero => cases h
  | succ w ih =>
    cases i with
    | zero => rfl
    | succ i =>
      rw [bits, getElem?_cons_succ, ih (lt_of_succ_lt_succ h)]
      congr 2
      omega

/-- High bits first, then low bits. -/
theorem bits_add (a b n : Nat) : bits (a + b) n = bits a (n >>> b) ++ bits b n := by
  induction a with
  | zero => rw [zero_add, bits, nil_append]
  | succ a ih =>
    rw [succ_add, bits, bits, ih, testBit_shiftRight, add_comm b a, cons_append]

/-- Only the low-order bits count. -/
theorem bits_congr {w m n : Nat} (h : ∀ i < w, m.testBit i = n.testBit i) :
    bits w m = bits w n := by
  induction w with
  | zero => rfl
  | succ w ih =>
    rw [bits, bits, h w (lt_succ_self w), ih fun i hi => h i (lt_succ_of_lt hi)]

theorem testBit_of_bits_eq {w m n : Nat} (h : bits w m = bits w n) :
    ∀ i < w, m.testBit i = n.testBit i := by
  induction w with
  | zero =>
    intro i hi
    cases hi
  | succ w ih =>
    rw [bits, bits, cons.injEq] at h
    intro i hi
    obtain rfl | hlt := Nat.eq_or_lt_of_le (le_of_lt_succ hi)
    · exact h.1
    · exact ih h.2 i hlt

theorem bits_inj {w m n : Nat} (hm : m < 2 ^ w) (hn : n < 2 ^ w) (h : bits w m = bits w n) :
    m = n := by
  apply eq_of_testBit_eq
  intro i
  by_cases hi : i < w
  · exact testBit_of_bits_eq h i hi
  · have hpow : 2 ^ w ≤ 2 ^ i := Nat.pow_le_pow_right (by decide) (Nat.not_lt.mp hi)
    rw [Nat.testBit_lt_two_pow (lt_of_lt_of_le hm hpow),
      Nat.testBit_lt_two_pow (lt_of_lt_of_le hn hpow)]

theorem bits_zero (w : Nat) : bits w 0 = replicate w false := by
  induction w with
  | zero => rfl
  | succ w ih => rw [bits, zero_testBit, ih, replicate_succ]

/-- All bits are clear exactly if the number is a multiple of `2 ^ w`. -/
theorem bits_eq_replicate_false {w n : Nat} : bits w n = replicate w false ↔ n % 2 ^ w = 0 := by
  rw [← bits_zero]
  constructor
  · intro h
    apply eq_of_testBit_eq
    intro i
    rw [testBit_mod_two_pow, zero_testBit]
    by_cases hi : i < w
    · rw [testBit_of_bits_eq h i hi, zero_testBit, Bool.and_false]
    · simp [hi]
  · intro h
    apply bits_congr
    intro i hi
    have hbit := congrArg (testBit · i) h
    simpa [testBit_mod_two_pow, hi] using hbit

/-- The bits of a list of numbers of one width. -/
def allBits (w : Nat) (ns : List Nat) : List Bool := ns.flatMap (bits w)

@[simp] theorem allBits_nil (w : Nat) : allBits w [] = [] := rfl

@[simp] theorem allBits_cons (w n : Nat) (ns : List Nat) :
    allBits w (n :: ns) = bits w n ++ allBits w ns := rfl

theorem allBits_append (w : Nat) (ms ns : List Nat) :
    allBits w (ms ++ ns) = allBits w ms ++ allBits w ns :=
  flatMap_append

@[simp] theorem length_allBits (w : Nat) (ns : List Nat) :
    (allBits w ns).length = w * ns.length := by
  induction ns with
  | nil => simp
  | cons n ns ih =>
    rw [allBits_cons, length_append, length_bits, ih, length_cons, mul_succ]
    omega

/-- The bits determine the numbers. -/
theorem allBits_inj {w : Nat} (hw : 0 < w) {ms ns : List Nat} (hm : ∀ m ∈ ms, m < 2 ^ w)
    (hn : ∀ n ∈ ns, n < 2 ^ w) (h : allBits w ms = allBits w ns) : ms = ns := by
  have hlen : ms.length = ns.length := by
    have hbits := congrArg length h
    rw [length_allBits, length_allBits] at hbits
    exact Nat.eq_of_mul_eq_mul_left hw hbits
  induction ms generalizing ns with
  | nil =>
    cases ns with
    | nil => rfl
    | cons n ns => cases hlen
  | cons m ms ih =>
    cases ns with
    | nil => cases hlen
    | cons n ns =>
      rw [allBits_cons, allBits_cons] at h
      obtain ⟨hhead, htail⟩ := append_inj h (by simp)
      rw [bits_inj (hm m mem_cons_self) (hn n mem_cons_self) hhead,
        ih (fun x hx => hm x (mem_cons_of_mem _ hx))
          (fun x hx => hn x (mem_cons_of_mem _ hx)) htail (by simpa using hlen)]

/-- The number that a string of bits spells. -/
def ofBits (bs : List Bool) : Nat := bs.foldl (fun n b => 2 * n + b.toNat) 0

theorem ofBits_append_singleton (bs : List Bool) (b : Bool) :
    ofBits (bs ++ [b]) = 2 * ofBits bs + b.toNat := by
  simp [ofBits]

theorem ofBits_lt (bs : List Bool) : ofBits bs < 2 ^ bs.length := by
  induction bs using reverseRecOn with
  | nil => simp [ofBits]
  | append_singleton bs b ih =>
    rw [ofBits_append_singleton, length_append, length_singleton, pow_succ]
    have hb : b.toNat ≤ 1 := Bool.toNat_le b
    omega

theorem bits_ofBits (bs : List Bool) : bits bs.length (ofBits bs) = bs := by
  induction bs using reverseRecOn with
  | nil => rfl
  | append_singleton bs b ih =>
    have hdiv : (2 * ofBits bs + b.toNat) >>> 1 = ofBits bs := by
      have hb : b.toNat ≤ 1 := Bool.toNat_le b
      rw [shiftRight_eq_div_pow]
      omega
    have hlow : (2 * ofBits bs + b.toNat).testBit 0 = b := by
      cases b <;> simp [testBit_zero]
    rw [ofBits_append_singleton, length_append, length_singleton, bits_add, hdiv, ih]
    rw [bits, bits, hlow]

/-- Each bit of the number is a bit of the string. -/
theorem testBit_ofBits {bs : List Bool} {j : Nat} (h : j < bs.length) :
    (ofBits bs).testBit j = bs.getD (bs.length - 1 - j) false := by
  have hbit := getElem?_bits (sub_one_sub_lt h) (ofBits bs)
  have hj : bs.length - 1 - (bs.length - 1 - j) = j := by omega
  rw [bits_ofBits, hj] at hbit
  rw [getD_eq_getElem?_getD, hbit, Option.getD_some]

/-- The first `n` groups of `w` bits, each as a number. -/
def groups (w n : Nat) (bs : List Bool) : List Nat :=
  (List.range n).map fun i => ofBits ((bs.drop (i * w)).take w)

@[simp] theorem length_groups (w n : Nat) (bs : List Bool) : (groups w n bs).length = n := by
  rw [groups, length_map, length_range]

theorem groups_succ (w n : Nat) (bs : List Bool) :
    groups w (n + 1) bs = ofBits (bs.take w) :: groups w n (bs.drop w) := by
  rw [groups, range_succ_eq_map, map_cons, map_map, zero_mul, drop_zero]
  congr 1
  apply map_congr_left
  intro i _
  show ofBits ((bs.drop ((i + 1) * w)).take w) = ofBits (((bs.drop w).drop (i * w)).take w)
  rw [drop_drop, succ_mul, add_comm w]

theorem lt_of_mem_groups {w n : Nat} {bs : List Bool} : ∀ g ∈ groups w n bs, g < 2 ^ w := by
  intro g hg
  obtain ⟨i, -, rfl⟩ := mem_map.mp hg
  have hle : ((bs.drop (i * w)).take w).length ≤ w := length_take_le _ _
  exact lt_of_lt_of_le (ofBits_lt _) (Nat.pow_le_pow_right (by decide) hle)

/-- Grouping loses nothing of what it reads. -/
theorem allBits_groups {w n : Nat} {bs : List Bool} (h : n * w ≤ bs.length) :
    allBits w (groups w n bs) = bs.take (n * w) := by
  induction n generalizing bs with
  | zero =>
    rw [zero_mul, take_zero]
    rfl
  | succ n ih =>
    rw [succ_mul] at h ⊢
    have hhead : (bs.take w).length = w := length_take_of_le (by omega)
    have htail : n * w ≤ (bs.drop w).length := by
      rw [length_drop]
      omega
    have hbits : bits w (ofBits (bs.take w)) = bs.take w := by
      have hofBits := bits_ofBits (bs.take w)
      rwa [hhead] at hofBits
    rw [groups_succ, allBits_cons, ih htail, hbits, add_comm (n * w) w, take_add]

/-- The groups of a string that starts with the bits of `ns`. -/
theorem groups_allBits_append {w : Nat} (hw : 0 < w) {ns : List Nat} (h : ∀ n ∈ ns, n < 2 ^ w)
    (bs : List Bool) : groups w ns.length (allBits w ns ++ bs) = ns := by
  have hlen : (allBits w ns).length = ns.length * w := by rw [length_allBits, mul_comm]
  apply allBits_inj hw lt_of_mem_groups h
  rw [allBits_groups]
  · rw [← hlen, take_left]
  · rw [length_append, hlen]
    exact le_add_right _ _

end BitString
