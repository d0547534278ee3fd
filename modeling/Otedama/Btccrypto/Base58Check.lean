import Otedama.Btccrypto.Base58

/-! # The one spelling of a legacy address

Base58 writes a byte string as a number, most significant digit first,
behind one `1` for each leading zero byte. Decoding inverts this and
accepts nothing else. An address is such a text of a version, a hash of
20 bytes and their checksum; that it starts with `1` or `3`, which is what
validation looks at first, follows from the size of the number. -/

namespace Otedama.Btccrypto

open GoString Bytes Radix List

/-! ## The encoding -/

/-- The canonical Base58 text of a byte string. -/
def base58Encode (bytes : List UInt8) : GoString :=
  text ((Radix.spell 58 (Radix.leadingZeros (bytes.map UInt8.toNat))
    (Radix.value 256 (bytes.map UInt8.toNat))).map (charOf base58Alphabet))

example : base58Encode [0x00, 0x00, 0x01, 0x02] = text "115T".toList := by decide +kernel

/-- Decoding inverts the encoding and accepts nothing else. -/
theorem base58Decode_eq_ok {s : GoString} {raw : List UInt8} :
    base58Decode s = .ok raw ↔ s = base58Encode raw := by
  constructor
  · intro h
    obtain ⟨vs, hvs, rfl, hraw⟩ := spell_of_base58Decode h
    unfold base58Encode
    rw [hraw, leadingZeros_spell, value_spell, spell_value (by decide) hvs]
  · rintro rfl
    have hspell := spell_value (b := 256) (by decide) (map_toNat_lt raw)
    unfold base58Encode
    generalize leadingZeros (raw.map UInt8.toNat) = z at hspell ⊢
    generalize value 256 (raw.map UInt8.toNat) = n at hspell ⊢
    have hlt := spell_lt (b := 58) (by decide) z n
    have hvalues : charValues base58Alphabet .base58Character
        (runes (text ((spell 58 z n).map (charOf base58Alphabet)))) =
          .ok (spell 58 z n) := by
      rw [runes_text (charOf_ascii hlt)]
      exact (charValues_eq_ok base58Alphabet_nodup).mpr ⟨hlt, rfl⟩
    have hones := leading_ones_eq hlt
    rw [leadingZeros_spell] at hones
    have hbytes : (replicate z 0 ++ bigBytes n).map UInt8.toNat = raw.map UInt8.toNat := by
      rw [map_append, map_replicate, map_toNat_bigBytes, ← hspell]
      rfl
    have hraw : replicate z 0 ++ bigBytes n = raw := by
      rw [← map_ofNat_toNat (replicate z 0 ++ bigBytes n), hbytes, map_ofNat_toNat]
    unfold base58Decode
    rw [hvalues]
    show Except.ok (replicate _ 0 ++ bigBytes (value 58 (spell 58 z n))) = _
    rw [hones, value_spell, hraw]

/-! ## The first character -/

theorem prefix_text_cons (c : Char) (cs : List Char) : text [c] <+: text (c :: cs) :=
  ⟨text cs, rfl⟩

/-- A leading zero byte is written as `1`. -/
theorem base58Encode_zero (bytes : List UInt8) : text ['1'] <+: base58Encode (0x00 :: bytes) := by
  have hzeros : leadingZeros ((0x00 :: bytes).map UInt8.toNat) =
      leadingZeros (bytes.map UInt8.toNat) + 1 := by
    unfold leadingZeros
    rw [map_cons, takeWhile_cons_of_pos (by rfl)]
    rfl
  unfold base58Encode
  rw [hzeros, spell, replicate_succ, cons_append, map_cons]
  exact prefix_text_cons '1' _

/-- With version 5 and 24 further bytes the first digit is 2, written `3`. -/
theorem base58Encode_five {bytes : List UInt8} (hlen : bytes.length = 24) :
    text ['3'] <+: base58Encode (0x05 :: bytes) := by
  have hrest := value_lt (b := 256) (by decide) (map_toNat_lt bytes)
  rw [length_map, hlen] at hrest
  have hvalue : value 256 ((0x05 :: bytes).map UInt8.toNat) =
      5 * 256 ^ 24 + value 256 (bytes.map UInt8.toNat) := by
    rw [map_cons, value_cons, length_map, hlen]
    rfl
  have hzeros : leadingZeros ((0x05 :: bytes).map UInt8.toNat) = 0 := by
    unfold leadingZeros
    rw [map_cons, takeWhile_cons_of_neg (by decide)]
    rfl
  -- `2 * 58^33 ≤ 5 * 256^24` and `6 * 256^24 < 3 * 58^33`.
  have hhead := head_spell (b := 58) (k := 33) (d := 2)
    (n := 5 * 256 ^ 24 + value 256 (bytes.map UInt8.toNat)) (by decide) (by decide)
    (by decide) (by omega) (by omega)
  obtain ⟨vs, hvs⟩ := head?_eq_some_iff.mp hhead
  unfold base58Encode
  rw [hzeros, hvalue, hvs, map_cons]
  exact prefix_text_cons '3' _

/-- Every canonical text passes the prefix test. -/
theorem base58Encode_prefix {T : AddressType} {version : UInt8} (hT : versionByte T = some version)
    {bytes : List UInt8} (hlen : bytes.length = 24) :
    text ['1'] <+: base58Encode (version :: bytes) ∨
      text ['3'] <+: base58Encode (version :: bytes) := by
  cases T <;> cases hT
  · exact .inl (base58Encode_zero bytes)
  · exact .inr (base58Encode_five hlen)

/-! ## Validation -/

/-- What starts with `1` or `3` does not start as a SegWit address. -/
theorem not_bech32_prefix {addr : GoString} (h : text ['1'] <+: addr ∨ text ['3'] <+: addr) :
    addr ≠ [] ∧ ¬ text ['b', 'c', '1'] <+: addr ∧ ¬ text ['B', 'C', '1'] <+: addr := by
  obtain ⟨rest, rfl⟩ | ⟨rest, rfl⟩ := h
  · simp [text, asciiByte]
  · simp [text, asciiByte]

theorem length_checked (double : List UInt8 → Bytes32) (version : UInt8) {hash : List UInt8}
    (hlen : hash.length = 20) : (hash ++ (double (version :: hash)).toList.take 4).length = 24 := by
  rw [length_append, hlen, length_take, Vector.length_toList]
  rfl

/-- The strings accepted with a type are the canonical texts of its version, a
hash and their checksum. -/
theorem validateBase58AddressWith_eq_ok {double : List UInt8 → Bytes32} {addr : GoString}
    {T : AddressType} : validateBase58AddressWith double addr = .ok T ↔
      ∃ version hash, versionByte T = some version ∧ hash.length = 20 ∧
        addr = base58Encode (version :: hash ++ (double (version :: hash)).toList.take 4) := by
  unfold validateBase58AddressWith
  constructor
  · intro h
    split at h
    · cases h
    cases hdec : base58Decode addr with
    | error e =>
      rw [hdec] at h
      cases h
    | ok raw =>
      rw [hdec] at h
      obtain ⟨version, hash, hversion, hlen, rfl⟩ := validateRawWith_eq_ok.mp h
      exact ⟨version, hash, hversion, hlen, base58Decode_eq_ok.mp hdec⟩
  · rintro ⟨version, hash, hversion, hlen, rfl⟩
    have hprefix := base58Encode_prefix hversion (length_checked double version hlen)
    obtain ⟨hne, hlower, hupper⟩ := not_bech32_prefix hprefix
    rw [cons_append, if_neg (by tauto), base58Decode_eq_ok.mpr rfl]
    exact validateRawWith_eq_ok.mpr ⟨version, hash, hversion, hlen, rfl⟩

/-- A string is accepted as P2PKH (P2SH) exactly if it is the canonical text of
version 0x00 (0x05), a hash and their checksum; each of these starts with
`1` (`3`). -/
theorem base58_one_spelling (double : List UInt8 → Bytes32) (s : GoString) :
    (validateBase58AddressWith double s = .ok .p2pkh ↔
      ∃ hash : List UInt8, hash.length = 20 ∧
        s = base58Encode (0x00 :: hash ++ (double (0x00 :: hash)).toList.take 4)) ∧
    (validateBase58AddressWith double s = .ok .p2sh ↔
      ∃ hash : List UInt8, hash.length = 20 ∧
        s = base58Encode (0x05 :: hash ++ (double (0x05 :: hash)).toList.take 4)) ∧
    ∀ hash : List UInt8, hash.length = 20 →
      text ['1'] <+: base58Encode (0x00 :: hash ++ (double (0x00 :: hash)).toList.take 4) ∧
      text ['3'] <+: base58Encode (0x05 :: hash ++ (double (0x05 :: hash)).toList.take 4) := by
  refine ⟨?_, ?_, ?_⟩
  · rw [validateBase58AddressWith_eq_ok]
    simp [versionByte]
  · rw [validateBase58AddressWith_eq_ok]
    simp [versionByte]
  · intro hash hlen
    exact ⟨base58Encode_zero _, base58Encode_five (length_checked double 0x05 hlen)⟩

end Otedama.Btccrypto
