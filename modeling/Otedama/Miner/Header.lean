import Otedama.Framework.Bytes
import Mathlib.Data.Int.Log
import Mathlib.Data.Rat.Floor

/-! # Block headers, hashes and targets

The 80-byte block header, double SHA-256 over it, the order in which a
hash is compared with a target, and the two ways a target is obtained:
from the compact network target `nBits` and from a Stratum V1 share
difficulty.

SHA-256 is a parameter: nothing here depends on what it computes. -/

namespace Otedama.Miner

open Bytes
open List hiding Vector

/-! ## Headers -/

/-- A block header; `nonce` is overwritten while grinding. -/
structure Header where
  version : UInt32
  prevHash : Bytes32
  merkleRoot : Bytes32
  time : UInt32
  bits : UInt32
  nonce : UInt32
  deriving DecidableEq, Repr

/-- The canonical 80-byte wire form of a header. -/
def Header.bytes (h : Header) : List UInt8 :=
  le32 h.version ++ h.prevHash.toList ++ h.merkleRoot.toList ++
    le32 h.time ++ le32 h.bits ++ le32 h.nonce

/-- The wire form determines the header. -/
theorem Header.bytes_injective : Function.Injective Header.bytes := by
  intro a b h
  unfold Header.bytes at h
  obtain ⟨h, hnonce⟩ := append_inj' h (by simp)
  obtain ⟨h, hbits⟩ := append_inj' h (by simp)
  obtain ⟨h, htime⟩ := append_inj' h (by simp)
  obtain ⟨h, hroot⟩ := append_inj' h (by simp)
  obtain ⟨hversion, hprev⟩ := append_inj' h (by simp)
  cases a
  cases b
  rw [Header.mk.injEq]
  exact ⟨le32_inj hversion, Vector.toList_inj.mp hprev, Vector.toList_inj.mp hroot,
    le32_inj htime, le32_inj hbits, le32_inj hnonce⟩

/-- What stays of a header while it is ground: everything but the timestamp,
the compact target and the nonce. -/
structure Template where
  version : UInt32
  prevHash : Bytes32
  merkleRoot : Bytes32
  deriving DecidableEq, Repr

def Header.template (h : Header) : Template where
  version := h.version
  prevHash := h.prevHash
  merkleRoot := h.merkleRoot

/-! ## Hashes -/

/-- A 32-byte hash or target, least significant byte first. -/
abbrev Hash := Bytes32

/-- Compare two byte strings from the most significant byte on; equal
strings count as `≤`. -/
def lessOrEqualFrom : List UInt8 → List UInt8 → Bool
  | a :: as, b :: bs =>
      if a < b then true
      else if b < a then false
      else lessOrEqualFrom as bs
  | _, _ => true

/-- Is `h` numerically at most `other`? The most significant byte is the
last one, so the comparison walks from index 31 down to 0. -/
def Hash.lessOrEqual (h other : Hash) : Bool :=
  lessOrEqualFrom h.toList.reverse other.toList.reverse

section Hashing

variable (sha256 : List UInt8 → Bytes32)

/-- Double SHA-256. -/
def sha256d (data : List UInt8) : Hash := sha256 (sha256 data).toList

/-- Double SHA-256 of the serialised header. -/
def hashHeader (h : Header) : Hash := sha256d sha256 h.bytes

end Hashing

/-! ## The compact target -/

/-- Why a target cannot be computed. -/
inductive TargetError where
  /-- Bit `0x00800000` of `nBits` is set. -/
  | negativeMantissa (nBits : UInt32)
  /-- The exponent byte of `nBits` is below 3. -/
  | exponentBelowMinimum (nBits : UInt32)
  /-- The target would be zero, which no hash can meet. -/
  | zeroMantissa (nBits : UInt32)
  /-- The target of `nBits` does not fit 256 bits. -/
  | nBitsOverflow (nBits : UInt32)
  /-- The difficulty is not positive. -/
  | invalidDifficulty (difficulty : ℚ)
  /-- The difficulty is so large that its target is zero. -/
  | nonPositiveTarget (difficulty : ℚ)
  /-- The difficulty is so small that its target does not fit 256 bits. -/
  | difficultyOverflow (difficulty : ℚ)
  deriving DecidableEq, Repr

/-- The 32 bytes of a big integer, if it fits them. `Bytes` gives them most
significant first and without leading zeros; they are moved to the end of
a zero array, which is then reversed into the order of a `Hash`. -/
def hashFromBig (v : Nat) : Option Hash :=
  let b := bigBytes v
  if 32 < b.length then none
  else
    let be := List.replicate (32 - b.length) 0 ++ b
    some (Vector.ofFn fun i => be.getD (31 - i.val) 0)

theorem toList_hashFromBig {be : List UInt8} (hlen : be.length = 32) :
    (Vector.ofFn fun i : Fin 32 => be.getD (31 - i.val) 0).toList = be.reverse := by
  apply ext_getElem
  · simp [hlen]
  · intro i hi hi'
    rw [length_reverse, hlen] at hi'
    simp [hlen, getElem?_eq_getElem (show 31 - i < be.length by omega)]

/-- The bytes are the little-endian ones of the number. -/
theorem hashFromBig_eq_some {v : Nat} {t : Hash} :
    hashFromBig v = some t ↔ v < 2 ^ 256 ∧ leValue t.toList = v := by
  have hfits : (bigBytes v).length ≤ 32 ↔ v < 2 ^ 256 := length_bigBytes_le_iff v 32
  unfold hashFromBig
  dsimp only
  by_cases hv : v < 2 ^ 256
  · have hlen := hfits.mpr hv
    rw [if_neg (Nat.not_lt.mpr hlen), Option.some.injEq]
    generalize hbe : replicate (32 - (bigBytes v).length) 0 ++ bigBytes v = be
    have hbelen : be.length = 32 := by
      rw [← hbe, length_append, length_replicate]
      omega
    have hvalue : leValue be.reverse = v := by
      rw [← hbe, reverse_append, reverse_replicate, leValue_append,
        leValue_replicate_zero, mul_zero, add_zero, leValue_reverse_bigBytes]
    constructor
    · rintro rfl
      rw [toList_hashFromBig hbelen]
      exact ⟨hv, hvalue⟩
    · rintro ⟨-, htarget⟩
      apply Vector.toList_inj.mp
      rw [toList_hashFromBig hbelen]
      exact leValue_inj (by simp [hbelen]) (hvalue.trans htarget.symm)
  · rw [if_pos (Nat.lt_of_not_le (mt hfits.mp hv))]
    constructor
    · intro h
      cases h
    · intro h
      exact absurd h.1 hv

/-- The target that the compact representation `nBits` stands for:
`mantissa * 2^(8 * (exponent - 3))`. -/
def targetFromNBits (nBits : UInt32) : Except TargetError Hash :=
  let exp := (nBits >>> 24).toNat
  let mant := (nBits &&& 0x007fffff).toNat
  if nBits &&& 0x00800000 ≠ 0 then .error (.negativeMantissa nBits)
  else if exp < 3 then .error (.exponentBelowMinimum nBits)
  else if mant = 0 then .error (.zeroMantissa nBits)
  else
    match hashFromBig (mant * 2 ^ (8 * (exp - 3))) with
    | none => .error (.nBitsOverflow nBits)
    | some target => .ok target

theorem targetFromNBits_eq_ok {nBits : UInt32} {target : Hash} :
    targetFromNBits nBits = .ok target ↔
      nBits &&& 0x00800000 = 0 ∧ 3 ≤ (nBits >>> 24).toNat ∧ (nBits &&& 0x007fffff).toNat ≠ 0 ∧
      (nBits &&& 0x007fffff).toNat * 2 ^ (8 * ((nBits >>> 24).toNat - 3)) < 2 ^ 256 ∧
      leValue target.toList =
        (nBits &&& 0x007fffff).toNat * 2 ^ (8 * ((nBits >>> 24).toNat - 3)) := by
  unfold targetFromNBits
  dsimp only
  generalize (nBits >>> 24).toNat = exp
  generalize (nBits &&& 0x007fffff).toNat = mant
  have hbig := hashFromBig_eq_some (t := target) (v := mant * 2 ^ (8 * (exp - 3)))
  -- One case for each of the checks, in the order of the source.
  by_cases hsign : nBits &&& 0x00800000 = 0
  · by_cases hexp : exp < 3
    · simp [hsign, hexp, Nat.not_le.mpr hexp]
    · by_cases hmant : mant = 0
      · simp [hsign, hexp, hmant]
      · cases hhash : hashFromBig (mant * 2 ^ (8 * (exp - 3))) with
        | none | some t =>
          rw [hhash] at hbig
          simpa [hsign, hexp, hmant, Nat.le_of_not_lt hexp] using hbig
  · simp [hsign]

/-! ## The target of a share difficulty

A difficulty is a `float64` that the session has checked to be positive
and finite, or 0 before the pool has sent one. Every finite `float64`
is a rational number, so difficulties are rationals here. The division
is carried out by `big.Float` with 256 bits of precision: the exact
quotient is rounded to 256 significant bits, ties to even, and then
truncated. -/

/-- Round to the nearest integer, ties to even. -/
def roundHalfEven (x : ℚ) : ℤ :=
  let lo := ⌊x⌋
  if x - lo < 1 / 2 then lo
  else if 1 / 2 < x - lo then lo + 1
  else if lo % 2 = 0 then lo else lo + 1

/-- Round a positive rational to `prec` significant bits, ties to even. -/
def roundToPrec (prec : Nat) (x : ℚ) : ℚ :=
  let e : ℤ := Int.log 2 x + 1 - prec
  roundHalfEven (x / 2 ^ e) * 2 ^ e

/-- The difficulty-1 target, `0xffff * 2^208`. -/
def diff1Target : Nat := 0xffff * 2 ^ 208

/-- The share target of a Stratum V1 difficulty. -/
def targetFromDifficulty (difficulty : ℚ) : Except TargetError Hash :=
  if ¬ 0 < difficulty then .error (.invalidDifficulty difficulty)
  else
    let target := ⌊roundToPrec 256 (diff1Target / difficulty)⌋
    if target ≤ 0 then .error (.nonPositiveTarget difficulty)
    else
      match hashFromBig target.toNat with
      | none => .error (.difficultyOverflow difficulty)
      | some out => .ok out

theorem targetFromDifficulty_one : targetFromDifficulty 1 = .ok (le256 diff1Target) := by
  decide +kernel

/-- The compact form of the difficulty-1 target. -/
theorem targetFromNBits_diff1 : targetFromNBits 0x1d00ffff = .ok (le256 diff1Target) := by
  decide +kernel

end Otedama.Miner
