import Otedama.Btccrypto.Base58Check
import Otedama.Btccrypto.Script

/-! # The address classifier

`ClassifyAddress` names the type of an address from its first characters
and its length, without decoding it. On what validation accepts in lower
case the two agree, and so does the script. Validation accepts SegWit
addresses in upper case as well, and there the classifier knows no type. -/

namespace Otedama.Btccrypto

open GoString Bytes List

/-! ## The source -/

def classifyAddress (addr : GoString) : AddressType :=
  if text ['b', 'c', '1', 'p'] <+: addr then .p2tr
  else if text ['b', 'c', '1', 'q'] <+: addr then
    -- A 20-byte program takes 42 characters, a 32-byte program 62.
    if addr.length ≥ 60 then .p2wsh else .p2wpkh
  else if text ['1'] <+: addr then .p2pkh
  else if text ['3'] <+: addr then .p2sh
  else .unknown

/-! ## First characters and lengths -/

/-- The text of a witness program starts with `bc1` and the version. -/
theorem refEncode_eq (k : WitnessKind) (program : List UInt8) :
    ∃ rest, refEncode k program = 'b' :: 'c' :: '1' :: charOf bech32Charset k.version :: rest :=
  ⟨_, rfl⟩

theorem length_refEncode {k : WitnessKind} {program : List UInt8}
    (hsize : program.length = k.size) : 8 * k.size + 50 ≤ 5 * (text (refEncode k program)).length ∧
      5 * (text (refEncode k program)).length < 8 * k.size + 55 := by
  have hgroups := length_fiveBitGroups (BitString.allBits 8 (program.map UInt8.toNat))
  rw [BitString.length_allBits, length_map, hsize] at hgroups
  have hlen : (text (refEncode k program)).length =
      (fiveBitGroups (BitString.allBits 8 (program.map UInt8.toNat))).length + 10 := by
    simp only [text, refEncode, addressText, refData, length_map, length_append,
      length_cons, length_nil, refChecksum_length]
    omega
  omega

theorem classifyAddress_bc1p (rest : List Char) :
    classifyAddress (text ('b' :: 'c' :: '1' :: 'p' :: rest)) = .p2tr := by
  unfold classifyAddress
  exact if_pos ⟨text rest, rfl⟩

theorem classifyAddress_bc1q (rest : List Char) :
    classifyAddress (text ('b' :: 'c' :: '1' :: 'q' :: rest)) =
      if (text ('b' :: 'c' :: '1' :: 'q' :: rest)).length ≥ 60 then .p2wsh else .p2wpkh := by
  have hp : ¬ text ['b', 'c', '1', 'p'] <+: text ('b' :: 'c' :: '1' :: 'q' :: rest) := by
    simp [text, asciiByte]
  unfold classifyAddress
  rw [if_neg hp]
  exact if_pos ⟨text rest, rfl⟩

variable {T : AddressType}

theorem classifyAddress_refEncode {k : WitnessKind} (hk : witnessKind T = some k)
    {program : List UInt8} (hsize : program.length = k.size) :
    classifyAddress (text (refEncode k program)) = T := by
  have hlen := length_refEncode hsize
  obtain ⟨rest, hrest⟩ := refEncode_eq k program
  rw [hrest] at hlen ⊢
  -- The character behind `bc1` is the version: `q` for 0, `p` for 1.
  have hq : charOf bech32Charset 0 = 'q' := by decide
  have hp : charOf bech32Charset 1 = 'p' := by decide
  cases T <;> cases hk
  · rw [hq] at hlen ⊢
    dsimp only at hlen
    rw [classifyAddress_bc1q, if_neg (by omega)]
  · rw [hq] at hlen ⊢
    dsimp only at hlen
    rw [classifyAddress_bc1q, if_pos (by omega)]
  · rw [hp, classifyAddress_bc1p]

/-- An address in upper case has no type. -/
theorem classifyAddress_upper {addr : GoString} (h : text ['B', 'C', '1'] <+: addr) :
    classifyAddress addr = .unknown := by
  obtain ⟨rest, rfl⟩ := h
  simp [classifyAddress, text, asciiByte]

theorem not_upper_of_lower {cs : List Char} {rest : List Char} (h : cs = 'b' :: rest) :
    ¬ text ['B', 'C', '1'] <+: text cs := by
  subst h
  simp [text, asciiByte]

/-- On SegWit addresses the classifier is right exactly in lower case. -/
theorem classifyAddress_segwit {m : CaseMapping} {addr : GoString}
    (h : validateBech32Address m addr = .ok T) :
    classifyAddress addr = T ↔ ¬ text ['B', 'C', '1'] <+: addr := by
  obtain ⟨k, hk, program, hsize, rfl | hup⟩ := (validateBech32Address_eq_ok m).mp h
  · have hlower := not_upper_of_lower (refEncode_eq k program).choose_spec
    exact ⟨fun _ => hlower, fun _ => classifyAddress_refEncode hk hsize⟩
  · have hprefix := prefix_of_kelvinToK m (refData_dataPart hk hsize).lt hup
    rw [classifyAddress_upper hprefix]
    constructor
    · rintro rfl
      cases hk
    · intro hnot
      exact absurd hprefix hnot

/-- On legacy addresses it is always right. -/
theorem classifyAddress_legacy {double : List UInt8 → Bytes32} {addr : GoString}
    (h : validateBase58AddressWith double addr = .ok T) :
    classifyAddress addr = T ∧ ¬ text ['B', 'C', '1'] <+: addr := by
  obtain ⟨version, hash, hversion, hlen, rfl⟩ := validateBase58AddressWith_eq_ok.mp h
  cases T <;> cases hversion
  · obtain ⟨rest, hrest⟩ := base58Encode_zero (hash ++ (double (0x00 :: hash)).toList.take 4)
    rw [cons_append, ← hrest]
    simp [classifyAddress, text, asciiByte]
  · obtain ⟨rest, hrest⟩ := base58Encode_five (length_checked double 0x05 hlen)
    rw [cons_append, ← hrest]
    simp [classifyAddress, text, asciiByte]

/-! ## Validator, classifier and script -/

/-- The script of each address type. -/
def ScriptForm : AddressType → List UInt8 → Prop
  | .p2pkh, script => ∃ hash : List UInt8, hash.length = 20 ∧
      script = [0x76, 0xa9, 0x14] ++ hash ++ [0x88, 0xac]
  | .p2sh, script => ∃ hash : List UInt8, hash.length = 20 ∧ script = [0xa9, 0x14] ++ hash ++ [0x87]
  | .p2wpkh, script => ∃ program : List UInt8, program.length = 20 ∧ script = [0x00, 0x14] ++ program
  | .p2wsh, script => ∃ program : List UInt8, program.length = 32 ∧ script = [0x00, 0x20] ++ program
  | .p2tr, script => ∃ program : List UInt8, program.length = 32 ∧ script = [0x51, 0x20] ++ program
  | _, _ => False

/-- The number of bytes in it. -/
def scriptSize : AddressType → Nat
  | .p2pkh => 25
  | .p2sh => 23
  | .p2wpkh => 22
  | .p2wsh => 34
  | .p2tr => 34
  | _ => 0

theorem ScriptForm.length {script : List UInt8} (h : ScriptForm T script) :
    script.length = scriptSize T := by
  cases T with
  | unknown => cases h
  | p2mr => cases h
  | p2pkh | p2sh =>
    obtain ⟨hash, hlen, rfl⟩ := h
    simp [scriptSize, hlen]
  | p2wpkh | p2wsh | p2tr =>
    obtain ⟨program, hlen, rfl⟩ := h
    simp [scriptSize, hlen]

theorem scriptForm_of_pays {sha256 : List UInt8 → Bytes32} {m : CaseMapping} {addr : GoString}
    {script : List UInt8} (h : PaysProgram m T addr script ∨ PaysHash sha256 T addr script) :
    ScriptForm T script := by
  obtain ⟨k, hk, program, hsize, -, rfl⟩ | ⟨version, hash, hversion, hlen, -, rfl⟩ := h
  · cases T <;> cases hk <;> exact ⟨program, hsize, rfl⟩
  · cases T <;> cases hversion <;> exact ⟨hash, hlen, rfl⟩

/-- An accepted address is classified as the type it was accepted with exactly
if it is not a SegWit address in upper case; its script always has the
form of that type. -/
theorem classifyAddress_agrees_iff (sha256 : List UInt8 → Bytes32) (m : CaseMapping)
    {addr : GoString} {T : AddressType} (h : validateAddress sha256 m addr = .ok T) :
    (classifyAddress addr = T ↔ ¬ text ['B', 'C', '1'] <+: addr) ∧
      ∃ script, scriptForAddress sha256 m addr = .ok script ∧ ScriptForm T script ∧
        script.length = scriptSize T := by
  constructor
  · obtain hseg | hleg := validateAddress_eq_ok h
    · exact classifyAddress_segwit hseg
    · obtain ⟨hclass, hlower⟩ := classifyAddress_legacy hleg
      exact ⟨fun _ => hlower, fun _ => hclass⟩
  · obtain ⟨script, hscript, hpays⟩ := scriptForAddress_of_valid h
    have hform := scriptForm_of_pays hpays
    exact ⟨script, hscript, hform, hform.length⟩

/-- An address in lower case and the same in upper case. -/
theorem sampleAddress_classified :
    classifyAddress sampleAddress = .p2wpkh ∧
      ∃ script, scriptForAddress (fun _ => zero32) CaseMapping.ascii sampleAddress = .ok script ∧
        script.length = 22 := by
  have hvalid : validateAddress (fun _ => zero32) CaseMapping.ascii sampleAddress =
      .ok .p2wpkh := by
    decide +kernel
  obtain ⟨hclass, script, hscript, -, hlen⟩ :=
    classifyAddress_agrees_iff (fun _ => zero32) CaseMapping.ascii hvalid
  exact ⟨hclass.mpr (by decide), script, hscript, hlen⟩

theorem sampleAddressUpper_unclassified :
    validateAddress (fun _ => zero32) CaseMapping.ascii sampleAddressUpper = .ok .p2wpkh ∧
      classifyAddress sampleAddressUpper = .unknown := by
  decide +kernel

end Otedama.Btccrypto
