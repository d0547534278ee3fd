import Mathlib.Data.Nat.Bitwise
import Otedama.Framework.Radix
import Otedama.Miner.Header

/-! # Compact targets

What the four bytes of `nBits` stand for, the comparison of a hash with
that number, and the way back from a target to `nBits`.

Decoding and comparison are exact. Encoding keeps the three leading bytes
of a target and is thereby the best approximation from below, but the
exponent it writes is the length of the target in bytes, and the decoder
takes no exponent below 3: what is smaller than `0x8000` does not come
back. -/

namespace Otedama.Miner

open Bytes Hash List Nat

/-! ## The source -/

/-- `big.Int.SetBytes` of the bytes of a hash, most significant first. -/
def Hash.toBig (h : Hash) : Nat := Radix.value 256 (h.toList.reverse.map UInt8.toNat)

/-- The bytes of a big integer with a zero in front where the first one has
the sign bit set. -/
def compactBytes (v : Nat) : List UInt8 :=
  let b := bigBytes v
  if b.headD 0 &&& 0x80 ≠ 0 then 0x00 :: b else b

/-- The leading bytes that fit a mantissa. -/
def compactMantissa : List UInt8 → UInt32
  | [] => 0
  | [b₀] => b₀.toUInt32
  | [b₀, b₁] => b₀.toUInt32 <<< 8 ||| b₁.toUInt32
  | b₀ :: b₁ :: b₂ :: _ => b₀.toUInt32 <<< 16 ||| b₁.toUInt32 <<< 8 ||| b₂.toUInt32

/-- The compact representation of a target. -/
def nBitsFromTarget (target : Hash) : UInt32 :=
  let v := Hash.toBig target
  if v = 0 then 0
  else
    let b := compactBytes v
    let exp := UInt8.ofNat b.length
    exp.toUInt32 <<< 24 ||| compactMantissa b

/-- Does a hash meet the target of `nBits`? -/
def meetsTarget (hash : Hash) (nBits : UInt32) : Except TargetError Bool := do
  let target ← targetFromNBits nBits
  return Hash.lessOrEqual hash target

/-! ## Hashes as numbers -/

/-- The number that the bytes of a hash spell, least significant first. -/
def Hash.value (h : Hash) : Nat := leValue h.toList

theorem Hash.value_lt (h : Hash) : value h < 2 ^ 256 := by
  have hlt := leValue_lt h.toList
  rwa [Vector.length_toList] at hlt

theorem Hash.value_inj {a b : Hash} (h : value a = value b) : a = b :=
  Vector.toList_inj.mp (leValue_inj (by simp) h)

theorem Hash.toBig_eq (h : Hash) : toBig h = value h := by
  unfold toBig value
  rw [Radix.value_eq_ofDigits, map_reverse, reverse_reverse, leValue_eq_ofDigits]

theorem leValue_reverse_cons (c : UInt8) (cs : List UInt8) :
    leValue (c :: cs).reverse = leValue cs.reverse + 256 ^ cs.length * c.toNat := by
  rw [reverse_cons, leValue_append, length_reverse]
  simp [leValue]

/-- The first byte in which two strings differ decides. -/
theorem lessOrEqualFrom_iff {as bs : List UInt8} (hlen : as.length = bs.length) :
    lessOrEqualFrom as bs = true ↔ leValue as.reverse ≤ leValue bs.reverse := by
  induction as generalizing bs with
  | nil =>
    obtain rfl : bs = [] := length_eq_zero_iff.mp hlen.symm
    simp [lessOrEqualFrom]
  | cons a as ih =>
    cases bs with
    | nil => cases hlen
    | cons b bs =>
      have htail : as.length = bs.length := succ.inj hlen
      have ha := leValue_lt as.reverse
      have hb := leValue_lt bs.reverse
      rw [length_reverse] at ha hb
      rw [lessOrEqualFrom, leValue_reverse_cons, leValue_reverse_cons, htail]
      rw [htail] at ha
      generalize 256 ^ bs.length = p at ha hb
      by_cases hlt : a < b
      · -- One unit of the leading byte outweighs all that follow.
        have hstep : p * (a.toNat + 1) ≤ p * b.toNat := Nat.mul_le_mul_left p hlt
        rw [if_pos hlt]
        rw [Nat.mul_succ] at hstep
        constructor
        · intro _
          omega
        · intro _
          rfl
      · rw [if_neg hlt]
        by_cases hgt : b < a
        · have hstep : p * (b.toNat + 1) ≤ p * a.toNat := Nat.mul_le_mul_left p hgt
          rw [if_pos hgt]
          rw [Nat.mul_succ] at hstep
          constructor
          · intro h
            cases h
          · intro h
            omega
        · obtain rfl : a = b := UInt8.le_antisymm (UInt8.not_lt.mp hgt) (UInt8.not_lt.mp hlt)
          rw [if_neg hgt, ih htail]
          omega

/-- Comparison is that of the numbers. -/
theorem Hash.lessOrEqual_iff (a b : Hash) : lessOrEqual a b = true ↔ value a ≤ value b := by
  unfold lessOrEqual value
  rw [lessOrEqualFrom_iff (by simp), reverse_reverse, reverse_reverse]

/-! ## Decoding -/

/-- Which `nBits` decode, to which number, and which hashes meet it. -/
theorem targetFromNBits_exact (nBits : UInt32) (hash : Hash) :
    let e := (nBits >>> 24).toNat
    let m := (nBits &&& 0x007fffff).toNat
    ((∃ target, targetFromNBits nBits = .ok target) ↔
      nBits &&& 0x00800000 = 0 ∧ 3 ≤ e ∧ m ≠ 0 ∧ m * 256 ^ (e - 3) < 2 ^ 256) ∧
    (∀ target, targetFromNBits nBits = .ok target → Hash.value target = m * 256 ^ (e - 3)) ∧
    (meetsTarget hash nBits = .ok true ↔
      (∃ target, targetFromNBits nBits = .ok target) ∧ Hash.value hash ≤ m * 256 ^ (e - 3)) := by
  intro e m
  have hok : ∀ target, targetFromNBits nBits = .ok target ↔
      nBits &&& 0x00800000 = 0 ∧ 3 ≤ e ∧ m ≠ 0 ∧ m * 256 ^ (e - 3) < 2 ^ 256 ∧
        Hash.value target = m * 256 ^ (e - 3) := by
    intro target
    rw [targetFromNBits_eq_ok, two_pow_eight_mul]
    rfl
  refine ⟨⟨?_, ?_⟩, ?_, ?_⟩
  · rintro ⟨target, htarget⟩
    obtain ⟨hsign, hexp, hmant, hlt, -⟩ := (hok target).mp htarget
    exact ⟨hsign, hexp, hmant, hlt⟩
  · rintro ⟨hsign, hexp, hmant, hlt⟩
    exact ⟨le256 _, (hok _).mpr ⟨hsign, hexp, hmant, hlt, leValue_leBytes (n := 32) hlt⟩⟩
  · intro target htarget
    exact ((hok target).mp htarget).2.2.2.2
  · unfold meetsTarget
    cases htarget : targetFromNBits nBits with
    | error err => simp
    | ok target =>
      obtain ⟨-, -, -, -, hvalue⟩ := (hok target).mp htarget
      have hle := Hash.lessOrEqual_iff hash target
      rw [hvalue] at hle
      simpa using hle

/-! ## Encoding -/

theorem and_two_pow_eq_zero_iff (n i : Nat) : n &&& 2 ^ i = 0 ↔ n / 2 ^ i % 2 = 0 := by
  rw [and_two_pow, testBit_eq_decide_div_mod_eq]
  have hbit : n / 2 ^ i % 2 < 2 := mod_lt _ (by decide)
  by_cases h : n / 2 ^ i % 2 = 1
  · simp [h]
  · simp [h]
    omega

/-- What decodes, in terms of `nBits` as a number. -/
theorem targetFromNBits_ok_iff {nBits : UInt32} {target : Hash} :
    targetFromNBits nBits = .ok target ↔
      nBits.toNat / 2 ^ 23 % 2 = 0 ∧ 3 ≤ nBits.toNat / 2 ^ 24 ∧ nBits.toNat % 2 ^ 23 ≠ 0 ∧
      value target = nBits.toNat % 2 ^ 23 * 256 ^ (nBits.toNat / 2 ^ 24 - 3) := by
  have hexp : (nBits >>> 24).toNat = nBits.toNat / 2 ^ 24 := by
    rw [UInt32.toNat_shiftRight]
    exact shiftRight_eq_div_pow _ _
  have hmant : (nBits &&& 0x007fffff).toNat = nBits.toNat % 2 ^ 23 := by
    rw [UInt32.toNat_and]
    exact and_two_pow_sub_one_eq_mod _ 23
  have hsign : nBits &&& 0x00800000 = 0 ↔ nBits.toNat / 2 ^ 23 % 2 = 0 := by
    rw [← UInt32.toNat_inj, UInt32.toNat_and]
    exact and_two_pow_eq_zero_iff nBits.toNat 23
  rw [targetFromNBits_eq_ok, hexp, hmant, hsign, two_pow_eight_mul]
  constructor
  · rintro ⟨h₁, h₂, h₃, -, h₄⟩
    exact ⟨h₁, h₂, h₃, h₄⟩
  · rintro ⟨h₁, h₂, h₃, h₄⟩
    exact ⟨h₁, h₂, h₃, h₄ ▸ value_lt target, h₄⟩

theorem leValue_reverse_compactBytes (v : Nat) : leValue (compactBytes v).reverse = v := by
  unfold compactBytes
  dsimp only
  split
  · rw [reverse_cons, leValue_append, leValue_reverse_bigBytes]
    simp [leValue]
  · exact leValue_reverse_bigBytes v

theorem sign_bit_iff (c : UInt8) : c &&& 0x80 ≠ 0 ↔ 128 ≤ c.toNat := by
  have hc := c.toNat_lt
  have hbit := and_two_pow_eq_zero_iff c.toNat 7
  rw [← UInt8.toNat_inj.ne, UInt8.toNat_and]
  show ¬ c.toNat &&& 2 ^ 7 = 0 ↔ _
  rw [hbit]
  omega

/-- The number of bytes with the sign bit clear is the smallest possible. -/
theorem compactBytes_bounds {v : Nat} (hv : 0 < v) :
    ∃ k, (compactBytes v).length = k + 1 ∧ v < 128 * 256 ^ k ∧ 128 * 256 ^ k ≤ 256 * v := by
  cases hb : bigBytes v with
  | nil =>
    have hzero : (bigBytes v).length ≤ 0 := by rw [hb]; rfl
    rw [length_bigBytes_le_iff] at hzero
    omega
  | cons c cs =>
    have hvalue := leValue_reverse_bigBytes v
    rw [hb, leValue_reverse_cons] at hvalue
    have hrest := leValue_lt cs.reverse
    rw [length_reverse] at hrest
    -- No byte is superfluous, so the number reaches the weight of the first.
    have hfirst : 256 ^ cs.length ≤ v := by
      have hlen := length_bigBytes_le_iff v cs.length
      rw [hb, length_cons] at hlen
      omega
    have hc := c.toNat_lt
    unfold compactBytes
    dsimp only
    rw [hb, headD_cons]
    generalize hp : 256 ^ cs.length = p at hvalue hrest hfirst
    by_cases hsign : c &&& 0x80 ≠ 0
    · have hge := (sign_bit_iff c).mp hsign
      have hlow : p * 128 ≤ p * c.toNat := Nat.mul_le_mul_left p hge
      have hhigh : p * (c.toNat + 1) ≤ p * 256 := Nat.mul_le_mul_left p hc
      rw [Nat.mul_succ] at hhigh
      rw [if_pos hsign]
      refine ⟨cs.length + 1, rfl, ?_, ?_⟩ <;> rw [pow_succ, hp] <;> omega
    · have hlt : c.toNat < 128 := Nat.lt_of_not_le (mt (sign_bit_iff c).mpr hsign)
      have hhigh : p * (c.toNat + 1) ≤ p * 128 := Nat.mul_le_mul_left p hlt
      rw [Nat.mul_succ] at hhigh
      rw [if_neg hsign]
      refine ⟨cs.length, rfl, ?_, ?_⟩ <;> rw [hp] <;> omega

theorem toNat_byte_shiftLeft (b : UInt8) {i : Nat} (hi : i ≤ 24) :
    (b.toUInt32 <<< UInt32.ofNat i).toNat = b.toNat * 2 ^ i := by
  have hb := b.toNat_lt
  have hpow : 2 ^ i ≤ 2 ^ 24 := Nat.pow_le_pow_right (by decide) hi
  have hlt : b.toNat * 2 ^ i < 2 ^ 32 :=
    calc b.toNat * 2 ^ i ≤ 255 * 2 ^ 24 := Nat.mul_le_mul (by omega) hpow
      _ < 2 ^ 32 := by decide
  have hmod : (UInt32.ofNat i).toNat % 32 = i := by
    rw [UInt32.toNat_ofNat']
    omega
  rw [UInt32.toNat_shiftLeft, hmod, UInt8.toNat_toUInt32, shiftLeft_eq, mod_eq_of_lt hlt]

/-- A byte put in front of a number with `i` bits. -/
theorem toNat_byte_shiftLeft_or (b : UInt8) {i : Nat} (hi : i ≤ 24) {n : UInt32}
    (hn : n.toNat < 2 ^ i) :
    (b.toUInt32 <<< UInt32.ofNat i ||| n).toNat = b.toNat * 2 ^ i + n.toNat := by
  rw [UInt32.toNat_or, toNat_byte_shiftLeft b hi, ← shiftLeft_eq, shiftLeft_add_eq_or_of_lt hn]

theorem compactMantissa_toNat (b₀ b₁ b₂ : UInt8) (rest : List UInt8) :
    (compactMantissa (b₀ :: b₁ :: b₂ :: rest)).toNat =
      b₀.toNat * 2 ^ 16 + (b₁.toNat * 2 ^ 8 + b₂.toNat) := by
  have h₁ := b₁.toNat_lt
  have h₂ := b₂.toNat_lt
  have hlow : (b₁.toUInt32 <<< 8 ||| b₂.toUInt32).toNat = b₁.toNat * 2 ^ 8 + b₂.toNat :=
    toNat_byte_shiftLeft_or b₁ (i := 8) (by decide) h₂
  rw [compactMantissa, UInt32.or_assoc, ← hlow]
  exact toNat_byte_shiftLeft_or b₀ (i := 16) (by decide) (by omega)

theorem compactMantissa_lt (b : List UInt8) : (compactMantissa b).toNat < 2 ^ 24 := by
  rcases b with _ | ⟨b₀, _ | ⟨b₁, _ | ⟨b₂, rest⟩⟩⟩
  · decide
  · have h₀ := b₀.toNat_lt
    show b₀.toNat < 2 ^ 24
    omega
  · have h₀ := b₀.toNat_lt
    have h₁ := b₁.toNat_lt
    have htwo : (b₀.toUInt32 <<< 8 ||| b₁.toUInt32).toNat = b₀.toNat * 2 ^ 8 + b₁.toNat :=
      toNat_byte_shiftLeft_or b₀ (i := 8) (by decide) h₁
    rw [compactMantissa, htwo]
    omega
  · have h₀ := b₀.toNat_lt
    have h₁ := b₁.toNat_lt
    have h₂ := b₂.toNat_lt
    rw [compactMantissa_toNat]
    omega

/-- The encoding of a target: the number of bytes, then the mantissa. -/
theorem nBitsFromTarget_toNat {T : Hash} (hpos : 0 < value T) : (nBitsFromTarget T).toNat =
      (compactBytes (value T)).length * 2 ^ 24 +
        (compactMantissa (compactBytes (value T))).toNat := by
  have hlt := value_lt T
  obtain ⟨l, hlen, -, hge⟩ := compactBytes_bounds hpos
  have hl : l < 33 := by
    rw [← Nat.pow_lt_pow_iff_right (show 1 < 256 by decide)]
    omega
  have hexp : (UInt8.ofNat (l + 1)).toNat = l + 1 := by
    rw [UInt8.toNat_ofNat', mod_eq_of_lt (by omega)]
  unfold nBitsFromTarget
  dsimp only
  rw [toBig_eq, if_neg (by omega), hlen]
  conv_rhs => rw [← hexp]
  exact toNat_byte_shiftLeft_or _ (i := 24) (by decide) (compactMantissa_lt _)

theorem length_compactBytes {v k : Nat} (hlow : 2 ^ 15 * 256 ^ k ≤ v)
    (hhigh : v < 2 ^ 23 * 256 ^ k) : (compactBytes v).length = k + 3 := by
  have hpos : 0 < 256 ^ k := Nat.pow_pos (by decide)
  obtain ⟨l, hlen, hlt, hge⟩ := compactBytes_bounds (v := v) (by omega)
  have hmore : 256 ^ (k + 1) < 256 ^ l := by
    rw [pow_succ]
    omega
  have hless : 256 ^ l < 256 ^ (k + 3) := by
    rw [pow_add]
    omega
  rw [Nat.pow_lt_pow_iff_right (by decide)] at hmore hless
  omega

/-- The mantissa of three bytes or more is the leading part of the number. -/
theorem compactMantissa_compactBytes {v k : Nat} (hlen : (compactBytes v).length = k + 3) :
    (compactMantissa (compactBytes v)).toNat = v / 256 ^ k := by
  have hpos : 0 < 256 ^ k := Nat.pow_pos (by decide)
  have hspell := leValue_reverse_compactBytes v
  rcases hb : compactBytes v with _ | ⟨b₀, _ | ⟨b₁, _ | ⟨b₂, rest⟩⟩⟩
  · simp [hb] at hlen
  · simp [hb] at hlen
  · simp [hb] at hlen
  · rw [hb] at hlen hspell
    have hrest : rest.length = k := by simpa using hlen
    have htail := leValue_lt rest.reverse
    rw [length_reverse, hrest] at htail
    simp only [leValue_reverse_cons, length_cons, hrest, pow_succ] at hspell
    have hsplit : v = leValue rest.reverse +
        256 ^ k * (b₀.toNat * 2 ^ 16 + (b₁.toNat * 2 ^ 8 + b₂.toNat)) := by
      rw [← hspell]
      ring
    rw [compactMantissa_toNat, hsplit, add_mul_div_left _ _ hpos, div_eq_of_lt htail, zero_add]

/-- A target of three bytes or more is brought back with its lower bytes zero. -/
theorem targetFromNBits_nBitsFromTarget {T : Hash} {k : Nat}
    (hlow : 2 ^ 15 * 256 ^ k ≤ value T) (hhigh : value T < 2 ^ 23 * 256 ^ k) {t : Hash} :
    targetFromNBits (nBitsFromTarget T) = .ok t ↔ value t = value T / 256 ^ k * 256 ^ k := by
  have hpos : 0 < 256 ^ k := Nat.pow_pos (by decide)
  have hlead : 2 ^ 15 ≤ value T / 256 ^ k := (Nat.le_div_iff_mul_le hpos).mpr hlow
  have hfit : value T / 256 ^ k < 2 ^ 23 := Nat.div_lt_of_lt_mul (by rwa [mul_comm])
  have hlen := length_compactBytes hlow hhigh
  have hnBits := nBitsFromTarget_toNat (T := T) (by omega)
  rw [hlen, compactMantissa_compactBytes hlen] at hnBits
  generalize value T / 256 ^ k = mant at hnBits hlead hfit
  have hexp : (nBitsFromTarget T).toNat / 2 ^ 24 = k + 3 := by omega
  have hmant : (nBitsFromTarget T).toNat % 2 ^ 23 = mant := by omega
  have hsign : (nBitsFromTarget T).toNat / 2 ^ 23 % 2 = 0 := by omega
  rw [targetFromNBits_ok_iff, hexp, hmant, hsign, Nat.add_sub_cancel]
  constructor
  · intro h
    exact h.2.2.2
  · intro h
    exact ⟨rfl, by omega, by omega, h⟩

/-- Every target of three bytes or more lies in such a range. -/
theorem exists_compact_range {v : Nat} (h : 2 ^ 15 ≤ v) :
    ∃ k, 2 ^ 15 * 256 ^ k ≤ v ∧ v < 2 ^ 23 * 256 ^ k := by
  obtain ⟨l, -, hlt, hge⟩ := compactBytes_bounds (v := v) (by omega)
  rcases l with _ | _ | k
  · omega
  · omega
  · exact ⟨k, by rw [pow_succ, pow_succ] at hge; omega, by rw [pow_succ, pow_succ] at hlt; omega⟩

/-- A smaller target is encoded with an exponent that does not decode. -/
theorem targetFromNBits_nBitsFromTarget_small {T : Hash} (hpos : 0 < value T)
    (h : value T < 2 ^ 15) (t : Hash) : targetFromNBits (nBitsFromTarget T) ≠ .ok t := by
  intro hok
  obtain ⟨-, hexp, -, -⟩ := targetFromNBits_ok_iff.mp hok
  obtain ⟨l, hlen, -, hge⟩ := compactBytes_bounds hpos
  have hl : l < 2 := by
    rw [← Nat.pow_lt_pow_iff_right (show 1 < 256 by decide)]
    omega
  have hmant := compactMantissa_lt (compactBytes (value T))
  have hnBits := nBitsFromTarget_toNat hpos
  rw [hlen] at hnBits
  omega

/-- No number with a mantissa below `2^23` lies between the leading part of `v`
and `v`. -/
theorem compact_le_leading {v k m j : Nat} (hlow : 2 ^ 15 * 256 ^ k ≤ v) (hm : m < 2 ^ 23)
    (hle : m * 256 ^ j ≤ v) : m * 256 ^ j ≤ v / 256 ^ k * 256 ^ k := by
  have hpos : 0 < 256 ^ k := Nat.pow_pos (by decide)
  rcases Nat.lt_or_ge j k with hjk | hkj
  · -- With a smaller exponent the number is below every leading part.
    obtain ⟨d, rfl⟩ : ∃ d, k = j + d + 1 := ⟨k - j - 1, by omega⟩
    have hlead : 2 ^ 15 ≤ v / 256 ^ (j + d + 1) := (Nat.le_div_iff_mul_le hpos).mpr hlow
    calc m * 256 ^ j ≤ 2 ^ 23 * 256 ^ (j + d) :=
          Nat.mul_le_mul hm.le (Nat.pow_le_pow_right (by decide) (by omega))
      _ = 2 ^ 15 * 256 ^ (j + d + 1) := by ring
      _ ≤ v / 256 ^ (j + d + 1) * 256 ^ (j + d + 1) := Nat.mul_le_mul_right _ hlead
  · -- With a larger one it is a multiple of the unit of the leading part.
    obtain ⟨d, rfl⟩ : ∃ d, j = d + k := ⟨j - k, by omega⟩
    rw [pow_add, ← mul_assoc] at hle ⊢
    exact Nat.mul_le_mul_right _ ((Nat.le_div_iff_mul_le hpos).mpr hle)

/-- The numbers that decoding can give. -/
def Decodable (v : Nat) : Prop := ∃ nBits t, targetFromNBits nBits = .ok t ∧ Hash.value t = v

theorem Decodable.form {v : Nat} (h : Decodable v) : ∃ m j, m < 2 ^ 23 ∧ v = m * 256 ^ j := by
  obtain ⟨nBits, t, hok, rfl⟩ := h
  obtain ⟨-, -, -, hvalue⟩ := targetFromNBits_ok_iff.mp hok
  exact ⟨_, _, mod_lt _ (by decide), hvalue⟩

/-- From `0x8000` on the encoding decodes, to the greatest number possible. -/
theorem nBitsFromTarget_isGreatest {T : Hash} (h : 0x8000 ≤ value T) :
    ∃ t, targetFromNBits (nBitsFromTarget T) = .ok t ∧
      IsGreatest {v | v ≤ value T ∧ Decodable v} (value t) := by
  obtain ⟨k, hlow, hhigh⟩ := exists_compact_range h
  have hvalue : value (le256 (value T / 256 ^ k * 256 ^ k)) = value T / 256 ^ k * 256 ^ k := by
    have hlt := value_lt T
    have hle := div_mul_le_self (value T) (256 ^ k)
    exact leValue_leBytes (n := 32) (by omega)
  have hok := (targetFromNBits_nBitsFromTarget hlow hhigh).mpr hvalue
  refine ⟨_, hok, ⟨?_, _, _, hok, rfl⟩, ?_⟩
  · rw [hvalue]
    exact div_mul_le_self _ _
  · rintro v ⟨hle, hdec⟩
    obtain ⟨m, j, hm, rfl⟩ := hdec.form
    rw [hvalue]
    exact compact_le_leading hlow hm hle

/-- A positive target comes back as the greatest number that `nBits` can stand
for and that does not exceed it exactly if it is at least `0x8000`; so does
a target that itself was decoded, and then it comes back unchanged. -/
theorem nBitsFromTarget_truncates_iff (T : Hash) (hpos : 1 ≤ Hash.value T) :
    ((∃ t, targetFromNBits (nBitsFromTarget T) = .ok t ∧
        IsGreatest {v | v ≤ Hash.value T ∧ Decodable v} (Hash.value t)) ↔
      0x8000 ≤ Hash.value T) ∧
    (∀ nBits, targetFromNBits nBits = .ok T →
      (targetFromNBits (nBitsFromTarget T) = .ok T ↔ 0x8000 ≤ Hash.value T)) := by
  have hdomain : ∀ t, targetFromNBits (nBitsFromTarget T) = .ok t → 0x8000 ≤ Hash.value T := by
    intro t hok
    by_contra hsmall
    exact targetFromNBits_nBitsFromTarget_small hpos (Nat.lt_of_not_le hsmall) t hok
  constructor
  · constructor
    · rintro ⟨t, hok, -⟩
      exact hdomain t hok
    · exact nBitsFromTarget_isGreatest
  · intro nBits hT
    constructor
    · exact hdomain T
    · intro hbig
      obtain ⟨t, hok, ⟨hle, -⟩, hgreatest⟩ := nBitsFromTarget_isGreatest hbig
      -- The target is itself one of the numbers that can be decoded.
      have hself := hgreatest ⟨Nat.le_refl _, nBits, T, hT, rfl⟩
      rwa [Hash.value_inj (Nat.le_antisymm hle hself)] at hok

/-- The target 1 decodes from `0x03000001` and is encoded as `0x01000001`, which
does not decode. -/
theorem nBitsFromTarget_one_rejected :
    targetFromNBits 0x03000001 = .ok (le256 1) ∧ nBitsFromTarget (le256 1) = 0x01000001 ∧
      targetFromNBits 0x01000001 = .error (.exponentBelowMinimum 0x01000001) := by
  decide +kernel

/-- The difficulty-1 target comes back. -/
theorem nBitsFromTarget_diff1 :
    targetFromNBits (nBitsFromTarget (le256 diff1Target)) = .ok (le256 diff1Target) := by
  have hvalue : Hash.value (le256 diff1Target) = diff1Target :=
    leValue_leBytes (n := 32) (by decide)
  have hpos : 1 ≤ Hash.value (le256 diff1Target) := by
    rw [hvalue]
    decide
  refine ((nBitsFromTarget_truncates_iff _ hpos).2 0x1d00ffff targetFromNBits_diff1).mpr ?_
  rw [hvalue]
  decide

end Otedama.Miner
