import Otedama.Btccrypto.Base58
import Otedama.Btccrypto.Reference

/-! # Locking scripts

The script that pays to an address. The script determines the address
type, and the address up to letter case: it holds the whole witness
program or hash, and the checksum is a function of those. -/

namespace Otedama.Btccrypto

open GoString BitString Bytes List

/-! ## The source -/

/-- The script of a decoded SegWit address. -/
def witnessScript (data : List Nat) : Except AddressError (List UInt8) := do
  let version := data.headD 0
  let program ← convertBits ((data.take (data.length - 6)).drop 1) 5 8 false
  let op : UInt8 := if version > 0 then 0x50 + UInt8.ofNat version else 0x00
  .ok (op :: UInt8.ofNat program.length :: program.map UInt8.ofNat)

/-- The script of a decoded legacy address. -/
def legacyScript (typ : AddressType) (raw : List UInt8) : Except AddressError (List UInt8) :=
  let h := (raw.take 21).drop 1
  match typ with
  | .p2pkh => .ok ([0x76, 0xa9, 0x14] ++ h ++ [0x88, 0xac])
  | .p2sh => .ok ([0xa9, 0x14] ++ h ++ [0x87])
  | typ => .error (.noScript typ)

def scriptForAddress (sha256 : List UInt8 → Bytes32) (m : CaseMapping) (addr : GoString) :
    Except AddressError (List UInt8) := do
  let typ ← validateAddress sha256 m addr
  match decodeBech32String m addr with
  | .ok data => witnessScript data
  | .error _ => do
      let raw ← base58Decode addr
      legacyScript typ raw

/-! ## The script of each kind of address -/

variable {sha256 : List UInt8 → Bytes32} {m : CaseMapping}

/-- The script for a witness program. -/
def programScript (k : WitnessKind) (program : List UInt8) : List UInt8 :=
  (if k.version > 0 then 0x50 + UInt8.ofNat k.version else 0x00) ::
    UInt8.ofNat k.size :: program

theorem witnessScript_refData {k : WitnessKind} {program : List UInt8}
    (hsize : program.length = k.size) :
    witnessScript (refData k program) = .ok (programScript k program) := by
  have hhead : (refData k program).headD 0 = k.version := rfl
  have hmid : ((refData k program).take ((refData k program).length - 6)).drop 1 =
      fiveBitGroups (allBits 8 (program.map UInt8.toNat)) := by
    unfold refData
    rw [length_append, refChecksum_length, Nat.add_sub_cancel, take_left]
    rfl
  have hconv := convertBits_eq_ok_iff_groups.mpr ⟨map_toNat_lt program, rfl⟩
  unfold witnessScript
  rw [hhead, hmid, hconv]
  show Except.ok (_ :: _ :: (program.map UInt8.toNat).map UInt8.ofNat) = _
  rw [map_ofNat_toNat, length_map, hsize]
  rfl

/-- A SegWit address: its lower case is the reference encoding of the program
in its script. -/
def PaysProgram (m : CaseMapping) (T : AddressType) (addr : GoString) (script : List UInt8) :
    Prop :=
  ∃ k, witnessKind T = some k ∧ ∃ program : List UInt8, program.length = k.size ∧
    m.toLower addr = text (refEncode k program) ∧ script = programScript k program

/-- The script for a hash. -/
def hashScript : AddressType → List UInt8 → List UInt8
  | .p2pkh, hash => [0x76, 0xa9, 0x14] ++ hash ++ [0x88, 0xac]
  | _, hash => [0xa9, 0x14] ++ hash ++ [0x87]

/-- A legacy address: it decodes to the version, the hash in its script, and
the checksum of the two. -/
def PaysHash (sha256 : List UInt8 → Bytes32) (T : AddressType) (addr : GoString)
    (script : List UInt8) : Prop :=
  ∃ version hash, versionByte T = some version ∧ hash.length = 20 ∧
    base58Decode addr =
      .ok (version :: hash ++ (hash256 sha256 (version :: hash)).toList.take 4) ∧
    script = hashScript T hash

variable {T : AddressType} {addr : GoString} {script : List UInt8}

theorem legacyScript_eq {version : UInt8} (hT : versionByte T = some version) {hash : List UInt8}
    (hlen : hash.length = 20) (sum : List UInt8) :
    legacyScript T (version :: hash ++ sum) = .ok (hashScript T hash) := by
  have hpayload : ((version :: hash ++ sum).take 21).drop 1 = hash := by
    have htake : (version :: hash ++ sum).take 21 = version :: hash :=
      take_left' (by rw [length_cons, hlen])
    rw [htake]
    rfl
  unfold legacyScript
  rw [hpayload]
  cases T <;> cases hT <;> rfl

/-- A string that validates as SegWit also decodes as such. -/
theorem decode_of_validateBech32Address (h : validateBech32Address m addr = .ok T) :
    ∃ k, witnessKind T = some k ∧ ∃ program : List UInt8, program.length = k.size ∧
      decodeBech32String m addr = .ok (refData k program) ∧
      m.toLower addr = text (refEncode k program) := by
  obtain ⟨k, hk, program, hsize, hform⟩ := (validateBech32Address_eq_ok m).mp h
  refine ⟨k, hk, program, hsize, ?_, ?_⟩
  · exact (decodeBech32String_eq_ok m).mpr ⟨refData_dataPart hk hsize, hform⟩
  · exact ((single_case_iff m (refEncode_lower hk hsize)).mpr hform).1

/-- Every accepted address has a script, of one of the two kinds. -/
theorem scriptForAddress_of_valid (hvalid : validateAddress sha256 m addr = .ok T) :
    ∃ script, scriptForAddress sha256 m addr = .ok script ∧
      (PaysProgram m T addr script ∨ PaysHash sha256 T addr script) := by
  unfold scriptForAddress
  rw [hvalid]
  obtain hseg | hleg := validateAddress_eq_ok hvalid
  · obtain ⟨k, hk, program, hsize, hdec, hlow⟩ := decode_of_validateBech32Address hseg
    refine ⟨programScript k program, ?_, .inl ⟨k, hk, program, hsize, hlow, rfl⟩⟩
    rw [hdec]
    exact witnessScript_refData hsize
  · obtain ⟨hdec, raw, hraw, hvalidRaw⟩ := validateBase58Address_eq_ok (m := m) hleg
    obtain ⟨version, hash, hversion, hlen, rfl⟩ := validateRawWith_eq_ok.mp hvalidRaw
    refine ⟨hashScript T hash, ?_, .inr ⟨version, hash, hversion, hlen, hraw, rfl⟩⟩
    rw [hdec, hraw]
    exact legacyScript_eq hversion hlen _

/-- The two kinds of accepted address and their scripts. -/
theorem pays_of_scriptForAddress (h : scriptForAddress sha256 m addr = .ok script) :
    ∃ T, validateAddress sha256 m addr = .ok T ∧
      (PaysProgram m T addr script ∨ PaysHash sha256 T addr script) := by
  cases hvalid : validateAddress sha256 m addr with
  | error e =>
    rw [scriptForAddress, hvalid] at h
    cases h
  | ok T =>
    obtain ⟨script', hscript, hpays⟩ := scriptForAddress_of_valid hvalid
    obtain rfl : script = script' := Except.ok.inj (h.symm.trans hscript)
    exact ⟨T, rfl, hpays⟩

/-! ## The script determines the address -/

/-- The first two bytes of the script, by address type. -/
def scriptHead : AddressType → List UInt8
  | .p2pkh => [0x76, 0xa9]
  | .p2sh => [0xa9, 0x14]
  | .p2wpkh => [0x00, 0x14]
  | .p2wsh => [0x00, 0x20]
  | .p2tr => [0x51, 0x20]
  | _ => []

theorem take_programScript {k : WitnessKind} (hk : witnessKind T = some k) (program : List UInt8) :
    (programScript k program).take 2 = scriptHead T := by
  cases T <;> cases hk <;> rfl

theorem take_hashScript {version : UInt8} (hT : versionByte T = some version) (hash : List UInt8) :
    (hashScript T hash).take 2 = scriptHead T := by
  cases T <;> cases hT <;> rfl

/-- Types that have scripts are told apart by the first two bytes. -/
theorem scriptHead_inj {U : AddressType} (hT : scriptHead T ≠ [])
    (h : scriptHead T = scriptHead U) : T = U := by
  cases T <;> cases U <;> simp_all [scriptHead]

theorem legacy_or_witness (hT : scriptHead T ≠ []) :
    (T = .p2pkh ∨ T = .p2sh) ∨ T = .p2wpkh ∨ T = .p2wsh ∨ T = .p2tr := by
  cases T <;> simp [scriptHead] at hT ⊢

theorem scriptHead_ne_nil {addr : List UInt8}
    (h : PaysProgram m T addr script ∨ PaysHash sha256 T addr script) :
    scriptHead T ≠ [] ∧ script.take 2 = scriptHead T := by
  obtain ⟨k, hk, program, -, -, rfl⟩ | ⟨version, hash, hversion, -, -, rfl⟩ := h
  · refine ⟨?_, take_programScript hk program⟩
    cases T <;> cases hk <;> decide
  · refine ⟨?_, take_hashScript hversion hash⟩
    cases T <;> cases hversion <;> decide

theorem paysProgram_inj {a b : GoString} (ha : PaysProgram m T a script)
    (hb : PaysProgram m T b script) : m.toLower a = m.toLower b := by
  obtain ⟨k, hk, program, -, hlow, rfl⟩ := ha
  obtain ⟨k', hk', program', -, hlow', hscript⟩ := hb
  obtain rfl : k = k' := Option.some.inj (hk.symm.trans hk')
  obtain ⟨-, htail⟩ := cons.inj hscript
  obtain ⟨-, rfl⟩ := cons.inj htail
  rw [hlow, hlow']

theorem hashScript_inj {hash hash' : List UInt8} (h : hashScript T hash = hashScript T hash') :
    hash = hash' := by
  cases T <;> simpa [hashScript] using h

theorem paysHash_inj {a b : GoString} (ha : PaysHash sha256 T a script)
    (hb : PaysHash sha256 T b script) : a = b := by
  obtain ⟨version, hash, hversion, -, hdec, rfl⟩ := ha
  obtain ⟨version', hash', hversion', -, hdec', hscript⟩ := hb
  obtain rfl : version = version' := Option.some.inj (hversion.symm.trans hversion')
  obtain rfl := hashScript_inj hscript
  exact base58Decode_inj hdec hdec'

theorem not_paysProgram_of_legacy (hT : T = .p2pkh ∨ T = .p2sh) :
    ¬ PaysProgram m T addr script := by
  rintro ⟨k, hk, -⟩
  obtain rfl | rfl := hT <;> cases hk

theorem not_paysHash_of_witness (hT : T = .p2wpkh ∨ T = .p2wsh ∨ T = .p2tr) :
    ¬ PaysHash sha256 T addr script := by
  rintro ⟨version, hash, hversion, -⟩
  obtain rfl | rfl | rfl := hT <;> cases hversion

/-- Two addresses with one script have one type, and are equal if it is a
legacy type and equal up to case if it is a witness type. -/
theorem scriptForAddress_injective (sha256 : List UInt8 → Bytes32) (m : CaseMapping)
    {a b : GoString} {script : List UInt8} (ha : scriptForAddress sha256 m a = .ok script)
    (hb : scriptForAddress sha256 m b = .ok script) :
    ∃ T, validateAddress sha256 m a = .ok T ∧ validateAddress sha256 m b = .ok T ∧
      (((T = .p2pkh ∨ T = .p2sh) ∧ a = b) ∨
        ((T = .p2wpkh ∨ T = .p2wsh ∨ T = .p2tr) ∧ m.toLower a = m.toLower b)) := by
  obtain ⟨T, hvalid, hpays⟩ := pays_of_scriptForAddress ha
  obtain ⟨U, hvalid', hpays'⟩ := pays_of_scriptForAddress hb
  obtain ⟨hne, hhead⟩ := scriptHead_ne_nil hpays
  obtain ⟨-, hhead'⟩ := scriptHead_ne_nil hpays'
  obtain rfl : T = U := scriptHead_inj hne (hhead.symm.trans hhead')
  refine ⟨T, hvalid, hvalid', ?_⟩
  obtain hlegacy | hwitness := legacy_or_witness hne
  · left
    have hpays := hpays.resolve_left (not_paysProgram_of_legacy hlegacy)
    have hpays' := hpays'.resolve_left (not_paysProgram_of_legacy hlegacy)
    exact ⟨hlegacy, paysHash_inj hpays hpays'⟩
  · right
    have hpays := hpays.resolve_right (not_paysHash_of_witness hwitness)
    have hpays' := hpays'.resolve_right (not_paysHash_of_witness hwitness)
    exact ⟨hwitness, paysProgram_inj hpays hpays'⟩

/-- The sample address in upper case. -/
def sampleAddressUpper : GoString := text "BC1QW508D6QEJXTDG4Y5R3ZARVARY0C5XW7KV8F3T4".toList

def sampleScript : List UInt8 :=
  [0x00, 0x14, 0x75, 0x1e, 0x76, 0xe8, 0x19, 0x91, 0x96, 0xd4, 0x54, 0x94, 0x1c, 0x45, 0xd1, 0xb3,
    0xa3, 0x23, 0xf1, 0x43, 0x3b, 0xd6]

theorem scriptForAddress_sample :
    ∃ T, validateAddress (fun _ => zero32) CaseMapping.ascii sampleAddress = .ok T ∧
      validateAddress (fun _ => zero32) CaseMapping.ascii sampleAddressUpper = .ok T ∧
      (((T = .p2pkh ∨ T = .p2sh) ∧ sampleAddress = sampleAddressUpper) ∨
        ((T = .p2wpkh ∨ T = .p2wsh ∨ T = .p2tr) ∧
          CaseMapping.ascii.toLower sampleAddress =
            CaseMapping.ascii.toLower sampleAddressUpper)) := by
  have hlower : scriptForAddress (fun _ => zero32) CaseMapping.ascii sampleAddress =
      .ok sampleScript := by
    decide +kernel
  have hupper : scriptForAddress (fun _ => zero32) CaseMapping.ascii sampleAddressUpper =
      .ok sampleScript := by
    decide +kernel
  exact scriptForAddress_injective _ _ hlower hupper

end Otedama.Btccrypto
