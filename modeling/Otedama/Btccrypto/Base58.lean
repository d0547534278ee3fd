import Otedama.Btccrypto.Bech32
import Otedama.Framework.Bytes
import Otedama.Framework.Radix

/-! # Legacy addresses

Base58Check: the digits of a big number, behind one `1` for each leading
zero byte, with four bytes of double SHA-256 at the end. The hash is a
parameter. `ValidateAddress` tries SegWit first and this format second. -/

namespace Otedama.Btccrypto

open GoString Bytes List

/-! ## The source -/

def base58Alphabet : List Char :=
  "123456789ABCDEFGHJKLMNPQRSTUVWXYZabcdefghijkmnopqrstuvwxyz".toList

def base58Decode (s : GoString) : Except AddressError (List UInt8) := do
  let vs ← charValues base58Alphabet .base58Character (runes s)
  let decoded := bigBytes (Radix.value 58 vs)
  let leading := (s.takeWhile (· == asciiByte '1')).length
  .ok (List.replicate leading 0 ++ decoded)

/-- The part of `ValidateBase58Address` behind `base58Decode`, with the hash of
the checksum as a parameter. -/
def validateRawWith (double : List UInt8 → Bytes32) (raw : List UInt8) :
    Except AddressError AddressType :=
  if raw.length ≠ 25 then .error (.base58Length raw.length)
  else
    let payload := raw.take 21
    let checksum := raw.drop 21
    if (double payload).toList.take 4 ≠ checksum then .error .base58Checksum
    else if payload.headD 0 = 0x00 then .ok .p2pkh
    else if payload.headD 0 = 0x05 then .ok .p2sh
    else .error (.base58Version (payload.headD 0))

def validateBase58AddressWith (double : List UInt8 → Bytes32) (addr : GoString) :
    Except AddressError AddressType :=
  if addr = [] ∨ text ['b', 'c', '1'] <+: addr ∨ text ['B', 'C', '1'] <+: addr ∨
      (¬ text ['1'] <+: addr ∧ ¬ text ['3'] <+: addr) then .error .notBase58
  else do
    let raw ← (base58Decode addr).mapError .base58Decode
    validateRawWith double raw

section Hashing

variable (sha256 : List UInt8 → Bytes32)

def hash256 (b : List UInt8) : Bytes32 := sha256 (sha256 b).toList

def validateBase58Address (addr : GoString) : Except AddressError AddressType :=
  validateBase58AddressWith (hash256 sha256) addr

def validateAddress (m : CaseMapping) (addr : GoString) : Except AddressError AddressType :=
  match validateBech32Address m addr with
  | .ok t => .ok t
  | .error e =>
      if AddressError.is .notBech32 e then
        match validateBase58Address sha256 addr with
        | .ok t => .ok t
        | .error e => if AddressError.is .notBase58 e then .error .unrecognised else .error e
      else .error e

end Hashing

/-! ## Decoding is injective -/

theorem base58Alphabet_nodup : base58Alphabet.Nodup := by decide +kernel

theorem base58Alphabet_ascii : ∀ c ∈ base58Alphabet, c.toNat < 128 :=
  forall_iff_forall_mem.mp (by decide +kernel)

theorem charOf_ascii {vs : List Nat} (h : ∀ v ∈ vs, v < 58) :
    ∀ c ∈ vs.map (charOf base58Alphabet), c.toNat < 128 := by
  intro c hc
  obtain ⟨v, hv, rfl⟩ := mem_map.mp hc
  exact base58Alphabet_ascii _ (charOf_mem (h v hv))

/-- The digit `1` has the value zero, and no other has. -/
theorem asciiByte_charOf_eq_one {v : Nat} (h : v < 58) :
    (asciiByte (charOf base58Alphabet v) == asciiByte '1') = (v == 0) := by
  revert v
  decide +kernel

/-- Leading ones of the text are leading zeros of its values. -/
theorem leading_ones_eq {vs : List Nat} (h : ∀ v ∈ vs, v < 58) :
    ((text (vs.map (charOf base58Alphabet))).takeWhile (· == asciiByte '1')).length =
      Radix.leadingZeros vs := by
  unfold Radix.leadingZeros
  induction vs with
  | nil => rfl
  | cons v vs ih =>
    have htail := ih fun x hx => h x (mem_cons_of_mem _ hx)
    have hhead := asciiByte_charOf_eq_one (h v mem_cons_self)
    unfold text at htail ⊢
    rw [map_cons, map_cons, takeWhile_cons, takeWhile_cons, hhead]
    cases hv : v == 0 with
    | false => rfl
    | true =>
      show _ + 1 = _ + 1
      rw [htail]

/-- What decodes is the text of some values, and the bytes are their number
behind their leading zeros. -/
theorem spell_of_base58Decode {s : GoString} {raw : List UInt8} (h : base58Decode s = .ok raw) :
    ∃ vs, (∀ v ∈ vs, v < 58) ∧ s = text (vs.map (charOf base58Alphabet)) ∧
      raw.map UInt8.toNat = Radix.spell 256 (Radix.leadingZeros vs) (Radix.value 58 vs) := by
  cases hvalues : charValues base58Alphabet .base58Character (runes s) with
  | error e =>
    rw [base58Decode, hvalues] at h
    cases h
  | ok vs =>
    obtain ⟨hlt, hrunes⟩ := (charValues_eq_ok base58Alphabet_nodup).mp hvalues
    have hs : s = text (vs.map (charOf base58Alphabet)) := by
      have hascii := charOf_ascii hlt
      rw [← hrunes] at hascii ⊢
      exact eq_map_of_runes_ascii hascii
    rw [base58Decode, hvalues] at h
    obtain rfl := Except.ok.inj h
    refine ⟨vs, hlt, hs, ?_⟩
    rw [map_append, map_replicate, map_toNat_bigBytes]
    conv_lhs => rw [hs, leading_ones_eq hlt]
    rfl

theorem base58Decode_inj {a b : GoString} {raw : List UInt8} (ha : base58Decode a = .ok raw)
    (hb : base58Decode b = .ok raw) : a = b := by
  obtain ⟨vs, hvs, rfl, hraw⟩ := spell_of_base58Decode ha
  obtain ⟨ws, hws, rfl, hraw'⟩ := spell_of_base58Decode hb
  obtain ⟨hzeros, hvalue⟩ := Radix.spell_inj (hraw.symm.trans hraw')
  rw [← Radix.spell_value (by decide) hvs, ← Radix.spell_value (by decide) hws, hzeros, hvalue]

/-! ## What validates -/

variable {sha256 : List UInt8 → Bytes32} {m : CaseMapping}

/-- The version byte of a legacy address type. -/
def versionByte : AddressType → Option UInt8
  | .p2pkh => some 0x00
  | .p2sh => some 0x05
  | _ => none

/-- Version, hash, and a checksum that the two determine. -/
theorem validateRawWith_eq_ok {double : List UInt8 → Bytes32} {raw : List UInt8} {T : AddressType} :
    validateRawWith double raw = .ok T ↔
      ∃ version hash, versionByte T = some version ∧ hash.length = 20 ∧
        raw = version :: hash ++ (double (version :: hash)).toList.take 4 := by
  unfold validateRawWith
  constructor
  · intro h
    split at h
    · cases h
    rename_i hlen
    rw [not_not] at hlen
    cases raw with
    | nil => cases hlen
    | cons version rest =>
      have hpayload : (version :: rest).take 21 = version :: rest.take 20 := rfl
      have hrest : rest.length = 24 := Nat.succ.inj hlen
      simp only [hpayload, headD_cons] at h
      split at h
      · cases h
      rename_i hsum
      rw [not_not] at hsum
      refine ⟨version, rest.take 20, ?_, by rw [length_take]; omega, ?_⟩
      · split at h
        · rename_i hversion
          cases h
          rw [hversion]
          rfl
        · split at h
          · rename_i hversion
            cases h
            rw [hversion]
            rfl
          · cases h
      · rw [hsum]
        exact (take_append_drop 21 (version :: rest)).symm
  · rintro ⟨version, hash, hversion, hlen, rfl⟩
    have hpayload : (version :: hash).length = 21 := by rw [length_cons, hlen]
    have hraw : (version :: hash ++ (double (version :: hash)).toList.take 4).length = 25 := by
      rw [length_append, hpayload, length_take, Vector.length_toList]
      rfl
    simp only [if_neg (not_not.mpr hraw), take_left' hpayload, drop_left' hpayload,
      if_neg (not_not.mpr (rfl : (double (version :: hash)).toList.take 4 = _)), headD_cons]
    cases T <;> cases hversion <;> rfl

/-- A legacy address decodes, and is not mistaken for SegWit. -/
theorem validateBase58Address_eq_ok {addr : GoString} {T : AddressType}
    (h : validateBase58Address sha256 addr = .ok T) :
    decodeBech32String m addr = .error .notBech32 ∧
      ∃ raw, base58Decode addr = .ok raw ∧ validateRawWith (hash256 sha256) raw = .ok T := by
  unfold validateBase58Address validateBase58AddressWith at h
  split at h
  · cases h
  rename_i hprefix
  constructor
  · unfold decodeBech32String
    rw [if_pos (by tauto)]
  · cases hdec : base58Decode addr with
    | error e =>
      rw [hdec] at h
      cases h
    | ok raw =>
      rw [hdec] at h
      exact ⟨raw, rfl, h⟩

/-- An address validates in one of the two formats. -/
theorem validateAddress_eq_ok {addr : GoString} {T : AddressType}
    (h : validateAddress sha256 m addr = .ok T) :
    validateBech32Address m addr = .ok T ∨ validateBase58Address sha256 addr = .ok T := by
  unfold validateAddress at h
  cases hseg : validateBech32Address m addr with
  | ok t =>
    rw [hseg] at h
    exact .inl h
  | error e =>
    rw [hseg] at h
    dsimp only at h
    split at h
    · right
      cases hleg : validateBase58Address sha256 addr with
      | ok t =>
        rw [hleg] at h
        exact h
      | error e' =>
        rw [hleg] at h
        dsimp only at h
        split at h <;> cases h
    · cases h

end Otedama.Btccrypto
