import Mathlib.Data.Nat.Digits.Lemmas

/-! # Byte strings

Fixed-size byte arrays and the little-endian encodings of numbers. -/

/-- A Go `[32]byte`. -/
abbrev Bytes32 := Vector UInt8 32

namespace Bytes

open Nat UInt8

open List hiding Vector

/-- The all-zero `[32]byte`, Go's zero value. -/
def zero32 : Bytes32 := Vector.replicate 32 0

theorem two_pow_eight_mul (k : Nat) : 2 ^ (8 * k) = 256 ^ k := by
  rw [pow_mul]
  rfl

/-- The `n` low-order bytes of `v`, least significant first. -/
def leBytes : Nat → Nat → List UInt8
  | 0, _ => []
  | n + 1, v => UInt8.ofNat (v % 256) :: leBytes n (v / 256)

@[simp] theorem length_leBytes (n v : Nat) : (leBytes n v).length = n := by
  induction n generalizing v with
  | zero => rfl
  | succ n ih => simp [leBytes, ih]

/-- Numbers below 256 are bytes. -/
theorem map_toNat_ofNat {ns : List Nat} (h : ∀ n ∈ ns, n < 2 ^ 8) :
    (ns.map ofNat).map UInt8.toNat = ns := by
  rw [map_map]
  conv_rhs => rw [← map_id ns]
  apply map_congr_left
  intro n hn
  show (ofNat n).toNat = n
  rw [toNat_ofNat']
  exact mod_eq_of_lt (h n hn)

theorem map_ofNat_toNat (bs : List UInt8) : (bs.map UInt8.toNat).map ofNat = bs := by
  rw [map_map]
  conv_rhs => rw [← map_id bs]
  apply map_congr_left
  intro b _
  exact UInt8.ofNat_toNat

theorem map_toNat_lt (bs : List UInt8) : ∀ n ∈ bs.map UInt8.toNat, n < 2 ^ 8 := by
  intro n hn
  obtain ⟨b, -, rfl⟩ := mem_map.mp hn
  exact b.toNat_lt

/-- `n` bytes determine a number below `256^n`. -/
theorem leBytes_inj {n v w : Nat} (hv : v < 256 ^ n) (hw : w < 256 ^ n)
    (h : leBytes n v = leBytes n w) : v = w := by
  induction n generalizing v w with
  | zero =>
    rw [pow_zero] at hv hw
    omega
  | succ n ih =>
    rw [leBytes, leBytes, cons.injEq] at h
    obtain ⟨hlow, hhigh⟩ := h
    have hlow' : v % 256 = w % 256 := by
      simpa using congrArg UInt8.toNat hlow
    rw [pow_succ] at hv hw
    have hhigh' := ih (Nat.div_lt_of_lt_mul (by omega)) (Nat.div_lt_of_lt_mul (by omega)) hhigh
    omega

/-- `binary.LittleEndian.PutUint32`. -/
def le32 (v : UInt32) : List UInt8 := leBytes 4 v.toNat

@[simp] theorem length_le32 (v : UInt32) : (le32 v).length = 4 := length_leBytes 4 _

theorem le32_inj {v w : UInt32} (h : le32 v = le32 w) : v = w :=
  UInt32.toNat_inj.mp (leBytes_inj (by have := v.toNat_lt; omega) (by have := w.toNat_lt; omega) h)

/-- The number that bytes spell, least significant first. -/
def leValue : List UInt8 → Nat
  | [] => 0
  | b :: bs => b.toNat + 256 * leValue bs

theorem leValue_lt (bs : List UInt8) : leValue bs < 256 ^ bs.length := by
  induction bs with
  | nil => simp [leValue]
  | cons b bs ih =>
    have hb := b.toNat_lt
    rw [leValue, length_cons, pow_succ]
    omega

theorem leValue_leBytes {n v : Nat} (hv : v < 256 ^ n) : leValue (leBytes n v) = v := by
  induction n generalizing v with
  | zero =>
    rw [pow_zero] at hv
    rw [leBytes, leValue]
    omega
  | succ n ih =>
    rw [pow_succ] at hv
    rw [leBytes, leValue, ih (Nat.div_lt_of_lt_mul (by omega)), toNat_ofNat']
    omega

/-- What does not fit is lost. -/
theorem leValue_leBytes_mod (n v : Nat) : leValue (leBytes n v) = v % 256 ^ n := by
  induction n generalizing v with
  | zero => rw [leBytes, leValue, pow_zero, mod_one]
  | succ n ih =>
    have hlow : (ofNat (v % 256)).toNat = v % 256 := by
      rw [toNat_ofNat']
      omega
    rw [leBytes, leValue, ih, hlow, pow_succ, mul_comm (256 ^ n), mod_mul]

theorem leBytes_eq_map (n v : Nat) :
    leBytes n v = (range n).map fun i => ofNat (v / 256 ^ i % 256) := by
  induction n generalizing v with
  | zero => rfl
  | succ n ih =>
    have hdiv : ∀ i, v / 256 / 256 ^ i = v / 256 ^ (i + 1) := by
      intro i
      rw [Nat.div_div_eq_div_mul, pow_succ, mul_comm 256]
    simp only [leBytes, ih, range_succ_eq_map, map_cons, map_map, hdiv]
    simp [Function.comp_def]

/-- Every byte string is the encoding of the number it spells. -/
theorem leBytes_leValue (bs : List UInt8) : leBytes bs.length (leValue bs) = bs := by
  induction bs with
  | nil => rfl
  | cons b bs ih =>
    have hb := b.toNat_lt
    have hlow : (b.toNat + 256 * leValue bs) % 256 = b.toNat := by omega
    have hhigh : (b.toNat + 256 * leValue bs) / 256 = leValue bs := by omega
    rw [length_cons, leValue, leBytes, hlow, hhigh, ih, UInt8.ofNat_toNat]

/-- `binary.LittleEndian.PutUint16`. -/
def le16 (v : UInt16) : List UInt8 := leBytes 2 v.toNat

/-- `binary.LittleEndian.PutUint64`. -/
def le64 (v : UInt64) : List UInt8 := leBytes 8 v.toNat

@[simp] theorem length_le16 (v : UInt16) : (le16 v).length = 2 := length_leBytes 2 _

@[simp] theorem length_le64 (v : UInt64) : (le64 v).length = 8 := length_leBytes 8 _

/-- `binary.LittleEndian.Uint16`. -/
def uint16 (bs : List UInt8) : UInt16 := UInt16.ofNat (leValue bs)

/-- `binary.LittleEndian.Uint32`. -/
def uint32 (bs : List UInt8) : UInt32 := UInt32.ofNat (leValue bs)

/-- `binary.LittleEndian.Uint64`. -/
def uint64 (bs : List UInt8) : UInt64 := UInt64.ofNat (leValue bs)

@[simp] theorem uint16_le16 (v : UInt16) : uint16 (le16 v) = v := by
  have hv := v.toNat_lt
  rw [uint16, le16, leValue_leBytes (by omega), UInt16.ofNat_toNat]

@[simp] theorem uint32_le32 (v : UInt32) : uint32 (le32 v) = v := by
  have hv := v.toNat_lt
  rw [uint32, le32, leValue_leBytes (by omega), UInt32.ofNat_toNat]

@[simp] theorem uint64_le64 (v : UInt64) : uint64 (le64 v) = v := by
  have hv := v.toNat_lt
  rw [uint64, le64, leValue_leBytes (by omega), UInt64.ofNat_toNat]

variable {bs : List UInt8}

theorem le16_uint16 (h : bs.length = 2) : le16 (uint16 bs) = bs := by
  have hlt := leValue_lt bs
  rw [h] at hlt
  rw [le16, uint16, UInt16.toNat_ofNat_of_lt' (by omega), ← h, leBytes_leValue]

theorem le32_uint32 (h : bs.length = 4) : le32 (uint32 bs) = bs := by
  have hlt := leValue_lt bs
  rw [h] at hlt
  rw [le32, uint32, UInt32.toNat_ofNat_of_lt' (by omega), ← h, leBytes_leValue]

theorem le64_uint64 (h : bs.length = 8) : le64 (uint64 bs) = bs := by
  have hlt := leValue_lt bs
  rw [h] at hlt
  rw [le64, uint64, UInt64.toNat_ofNat_of_lt' (by omega), ← h, leBytes_leValue]

/-- `copy(dst[:], src)` into a zero `[n]byte`. -/
def copyArray (n : Nat) (src : List UInt8) : Vector UInt8 n :=
  Vector.ofFn fun i => src[i.val]?.getD 0

@[simp] theorem copyArray_toList {n : Nat} (v : Vector UInt8 n) : copyArray n v.toList = v := by
  ext i hi
  simp [copyArray]

theorem toList_copyArray {n : Nat} (h : bs.length = n) : (copyArray n bs).toList = bs := by
  apply ext_getElem
  · simp [h]
  · intro i hi hi'
    simp [copyArray, hi']

/-- `copy(dst[:], src)` into a zero `[32]byte`. -/
def copy32 (src : List UInt8) : Bytes32 := copyArray 32 src

@[simp] theorem copy32_toList (v : Bytes32) : copy32 v.toList = v := copyArray_toList v

theorem toList_copy32 (h : bs.length = 32) : (copy32 bs).toList = bs :=
  toList_copyArray h

/-- A code for the values of a type in which every value takes `size` bytes
and every `size` bytes are a value. -/
structure FixedCode (α : Type) where
  size : Nat
  encode : α → List UInt8
  decode : List UInt8 → α
  length_encode : ∀ a, (encode a).length = size
  decode_encode : ∀ a, decode (encode a) = a
  encode_decode : ∀ bs, bs.length = size → encode (decode bs) = bs

/-- A long enough string starts with the code of a value. -/
theorem FixedCode.spell {α : Type} (c : FixedCode α) {p : List UInt8} (h : c.size ≤ p.length) :
    ∃ a t, p = c.encode a ++ t := by
  refine ⟨c.decode (p.take c.size), p.drop c.size, ?_⟩
  rw [c.encode_decode _ (by simp [h]), take_append_drop]

theorem FixedCode.not_length_lt {α : Type} (c : FixedCode α) (a : α) (t : List UInt8) :
    ¬ (c.encode a ++ t).length < c.size := by
  rw [length_append, c.length_encode]
  omega

theorem FixedCode.append_inj {α : Type} (c : FixedCode α) {a b : α} {s t : List UInt8} :
    c.encode a ++ s = c.encode b ++ t ↔ a = b ∧ s = t := by
  constructor
  · intro h
    obtain ⟨henc, ht⟩ := List.append_inj h ((c.length_encode a).trans (c.length_encode b).symm)
    have hdec := congrArg c.decode henc
    rw [c.decode_encode, c.decode_encode] at hdec
    exact ⟨hdec, ht⟩
  · rintro ⟨rfl, rfl⟩
    rfl

/-- One code after the other. -/
def FixedCode.prod {α β : Type} (c : FixedCode α) (d : FixedCode β) : FixedCode (α × β) where
  size := c.size + d.size
  encode x := c.encode x.1 ++ d.encode x.2
  decode bs := (c.decode (bs.take c.size), d.decode (bs.drop c.size))
  length_encode x := by rw [List.length_append, c.length_encode, d.length_encode]
  decode_encode x := by
    rw [List.take_left' (c.length_encode x.1), List.drop_left' (c.length_encode x.1),
      c.decode_encode, d.decode_encode]
  encode_decode bs h := by
    rw [c.encode_decode _ (by simp [h]), d.encode_decode _ (by simp [h]), List.take_append_drop]

/-- The same bytes for another type. -/
def FixedCode.map {α β : Type} (c : FixedCode α) (e : α ≃ β) : FixedCode β where
  size := c.size
  encode b := c.encode (e.symm b)
  decode bs := e (c.decode bs)
  length_encode b := c.length_encode _
  decode_encode b := by rw [c.decode_encode, Equiv.apply_symm_apply]
  encode_decode bs h := by rw [Equiv.symm_apply_apply, c.encode_decode bs h]

def u16LE : FixedCode UInt16 := ⟨2, le16, uint16, length_le16, uint16_le16, fun _ => le16_uint16⟩

def u32LE : FixedCode UInt32 := ⟨4, le32, uint32, length_le32, uint32_le32, fun _ => le32_uint32⟩

def u64LE : FixedCode UInt64 := ⟨8, le64, uint64, length_le64, uint64_le64, fun _ => le64_uint64⟩

def u256 : FixedCode Bytes32 :=
  ⟨32, Vector.toList, copy32, fun _ => by simp, copy32_toList, fun _ => toList_copy32⟩

/-- A 256-bit number as a little-endian `[32]byte`. -/
def le256 (v : Nat) : Bytes32 := ⟨(leBytes 32 v).toArray, by simp⟩

/-- `big.Int.Bytes`: most significant byte first, none of them a leading zero. -/
def bigBytes (n : Nat) : List UInt8 := (Nat.digits 256 n).reverse.map UInt8.ofNat

theorem map_toNat_bigBytes (n : Nat) : (bigBytes n).map UInt8.toNat = (digits 256 n).reverse := by
  apply map_toNat_ofNat
  intro d hd
  exact digits_lt_base (by decide) (mem_reverse.mp hd)

theorem leValue_append (as bs : List UInt8) :
    leValue (as ++ bs) = leValue as + 256 ^ as.length * leValue bs := by
  induction as with
  | nil => simp [leValue]
  | cons a as ih =>
    rw [cons_append, leValue, leValue, ih, length_cons, pow_succ]
    ring

theorem leValue_replicate_zero (n : Nat) : leValue (replicate n 0) = 0 := by
  induction n with
  | zero => rfl
  | succ n ih =>
    rw [replicate_succ, leValue, ih]
    rfl

theorem leValue_eq_ofDigits (bs : List UInt8) : leValue bs = ofDigits 256 (bs.map UInt8.toNat) := by
  induction bs with
  | nil => rfl
  | cons b bs ih => rw [leValue, ih, map_cons, ofDigits_cons]

/-- The bytes of a big integer, read backwards, spell it. -/
theorem leValue_reverse_bigBytes (n : Nat) : leValue (bigBytes n).reverse = n := by
  rw [leValue_eq_ofDigits, map_reverse, map_toNat_bigBytes, reverse_reverse, ofDigits_digits]

/-- Byte strings of one length are determined by the number they spell. -/
theorem leValue_inj {as : List UInt8} (hlen : as.length = bs.length) (h : leValue as = leValue bs) :
    as = bs := by
  rw [← leBytes_leValue as, ← leBytes_leValue bs, hlen, h]

theorem length_bigBytes_le_iff (n k : Nat) : (bigBytes n).length ≤ k ↔ n < 256 ^ k := by
  unfold bigBytes
  rw [length_map, length_reverse]
  exact digits_length_le_iff (by decide) n

end Bytes
