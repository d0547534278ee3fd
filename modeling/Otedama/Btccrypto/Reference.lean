import Otedama.Btccrypto.Bech32
import Otedama.Framework.Bytes

/-! # The reference encoding

BIP-173 and BIP-350 say how a witness program is written as an address.
The encoder below follows them and not the repository, which only ever
decodes. Validation is then compared with it: the strings accepted are
the reference addresses, in lower or upper case, and, as the only others,
upper-case ones in which a KELVIN SIGN stands for a `K`. -/

namespace Otedama.Btccrypto

open GoString BitString Bytes List Char

/-! ## The encoder -/

/-- What the BIPs fix for an address type. -/
structure WitnessKind where
  version : Nat
  /-- Bytes in the witness program. -/
  size : Nat
  /-- The checksum constant. -/
  const : Nat
  deriving DecidableEq, Repr

/-- The witness kinds that have an address type. -/
def witnessKind : AddressType → Option WitnessKind
  | .p2wpkh => some ⟨0, 20, 1⟩
  | .p2wsh => some ⟨0, 32, 1⟩
  | .p2tr => some ⟨1, 32, 0x2bc830a3⟩
  | _ => none

/-- Groups of five bits, the last one filled with zeros. -/
def fiveBitGroups : List Bool → List Nat
  | a :: b :: c :: d :: e :: rest => ofBits [a, b, c, d, e] :: fiveBitGroups rest
  | [] => []
  | rest => [ofBits (rest ++ List.replicate (5 - rest.length) false)]

/-- The six checksum values for the values before them. -/
def refChecksum (values : List Nat) (const : Nat) : List Nat :=
  Checksum.cells 5 6 (bech32Polymod (values ++ List.replicate 6 0) ^^^ const)

/-- Version and program in groups of five bits, then the checksum. -/
def refData (k : WitnessKind) (program : List UInt8) : List Nat :=
  let data := k.version :: fiveBitGroups (allBits 8 (program.map UInt8.toNat))
  data ++ refChecksum (bech32HrpExpand (text ['b', 'c']) ++ data) k.const

/-- The reference encoding of a witness program. -/
def refEncode (k : WitnessKind) (program : List UInt8) : List Char :=
  addressText (refData k program)

/-- An address of the repository's tests. -/
def sampleAddress : GoString := text "bc1qw508d6qejxtdg4y5r3zarvary0c5xw7kv8f3t4".toList

example : text (refEncode ⟨0, 20, 1⟩ [0x75, 0x1e, 0x76, 0xe8, 0x19, 0x91, 0x96, 0xd4, 0x54, 0x94,
    0x1c, 0x45, 0xd1, 0xb3, 0xa3, 0x23, 0xf1, 0x43, 0x3b, 0xd6]) = sampleAddress := by
  decide +kernel

/-! ## Validation inverts the encoder -/

theorem fiveBitGroups_spec (bs : List Bool) : (∀ v ∈ fiveBitGroups bs, v < 2 ^ 5) ∧
      ∃ n < 5, allBits 5 (fiveBitGroups bs) = bs ++ replicate n false := by
  have hlast : ∀ rest : List Bool, 0 < rest.length → rest.length < 5 →
      (∀ v ∈ [ofBits (rest ++ replicate (5 - rest.length) false)], v < 2 ^ 5) ∧
      ∃ n < 5, allBits 5 [ofBits (rest ++ replicate (5 - rest.length) false)] =
        rest ++ replicate n false := by
    intro rest hpos hlt
    have hlen : (rest ++ replicate (5 - rest.length) false).length = 5 := by
      rw [length_append, length_replicate]
      omega
    have hbits := bits_ofBits (rest ++ replicate (5 - rest.length) false)
    have hbound := ofBits_lt (rest ++ replicate (5 - rest.length) false)
    rw [hlen] at hbits hbound
    refine ⟨?_, 5 - rest.length, by omega, ?_⟩
    · intro v hv
      rw [mem_singleton.mp hv]
      exact hbound
    · rw [allBits_cons, allBits_nil, append_nil, hbits]
  induction bs using fiveBitGroups.induct with
  | case1 a b c d e rest ih =>
    obtain ⟨hlt, n, hn, hbits⟩ := ih
    refine ⟨?_, n, hn, ?_⟩
    · intro v hv
      obtain rfl | htail := mem_cons.mp hv
      · exact ofBits_lt [a, b, c, d, e]
      · exact hlt v htail
    · have hhead : bits 5 (ofBits [a, b, c, d, e]) = [a, b, c, d, e] := bits_ofBits [a, b, c, d, e]
      rw [fiveBitGroups, allBits_cons, hhead, hbits]
      rfl
  | case2 => exact ⟨by simp [fiveBitGroups], 0, by decide, rfl⟩
  | case3 rest hlong hne =>
    -- What is left has between one and four bits.
    rcases rest with _ | ⟨a, _ | ⟨b, _ | ⟨c, _ | ⟨d, _ | ⟨e, rest⟩⟩⟩⟩⟩
    · exact absurd rfl hne
    · exact hlast [a] (by simp) (by simp)
    · exact hlast [a, b] (by simp) (by simp)
    · exact hlast [a, b, c] (by simp) (by simp)
    · exact hlast [a, b, c, d] (by simp) (by simp)
    · exact absurd rfl (hlong a b c d e rest)

/-- Regrouping to bytes inverts the padded groups of five bits. -/
theorem convertBits_eq_ok_iff_groups {data out : List Nat} : convertBits data 5 8 false = .ok out ↔
      (∀ g ∈ out, g < 2 ^ 8) ∧ data = fiveBitGroups (allBits 8 out) := by
  rw [convertBits_eq_ok (by decide) (by decide)]
  obtain ⟨hgroups, n, hn, hbits⟩ := fiveBitGroups_spec (allBits 8 out)
  constructor
  · rintro ⟨hdata, hout, n', hn', -, heq⟩
    have hlen := congrArg length hbits
    have hlen' := congrArg length heq
    simp only [length_append, length_allBits, length_replicate] at hlen hlen'
    obtain rfl : n = n' := by omega
    exact ⟨hout, allBits_inj (by decide) hdata hgroups (heq.trans hbits.symm)⟩
  · rintro ⟨hout, rfl⟩
    exact ⟨hgroups, hout, n, hn, by omega, hbits⟩

theorem hrpValues_lt : ∀ v ∈ bech32HrpExpand (text ['b', 'c']), v < 2 ^ 5 := by decide

/-- The checksum matches the constant exactly if it is the reference one. -/
theorem bech32Polymod_eq_iff {values chk : List Nat} {const : Nat} (hvalues : ∀ v ∈ values, v < 2 ^ 5)
    (hchk : ∀ v ∈ chk, v < 2 ^ 5) (hlen : chk.length = 6) (hconst : const < 2 ^ 30) :
    bech32Polymod (values ++ chk) = const ↔ chk = refChecksum values const := by
  unfold refChecksum
  rw [bech32Polymod_eq_run, bech32Polymod_eq_run, polymodRegister.run_append,
    polymodRegister.run_append]
  have hc : polymodRegister.run 1 values < 2 ^ (5 * (5 + 1)) :=
    polymodRegister.run_lt (by decide) hvalues
  exact polymodRegister.run_eq_iff (by decide) hc hconst hlen hchk

theorem refChecksum_length (values : List Nat) (const : Nat) :
    (refChecksum values const).length = 6 := Checksum.length_cells _ _ _

theorem refChecksum_lt {values : List Nat} {const v : Nat} (h : v ∈ refChecksum values const) :
    v < 2 ^ 5 := Checksum.lt_of_mem_cells h

variable {T : AddressType} {s : GoString}

/-- Which witness kind the last test accepts. -/
theorem classifyWitnessProgram_eq_ok {version : Nat} {program : List Nat} :
    classifyWitnessProgram version program = .ok T ↔
      ∃ k, witnessKind T = some k ∧ version = k.version ∧ program.length = k.size := by
  constructor
  · intro h
    unfold classifyWitnessProgram at h
    split at h
    · split at h
      · rename_i hsize
        cases h
        exact ⟨_, rfl, rfl, hsize⟩
      · split at h
        · rename_i hsize
          cases h
          exact ⟨_, rfl, rfl, hsize⟩
        · cases h
    · split at h
      · cases h
      · rename_i hsize
        cases h
        exact ⟨_, rfl, rfl, not_not.mp hsize⟩
    · cases h
  · rintro ⟨k, hk, rfl, hsize⟩
    cases T <;> cases hk <;> simp [classifyWitnessProgram, hsize]

theorem witnessKind_bounds {k : WitnessKind} (h : witnessKind T = some k) :
    k.version ≤ 16 ∧ (if k.version ≠ 0 then bech32mConst else bech32Const) = k.const ∧
      k.const < 2 ^ 30 ∧ 2 ≤ k.size ∧ k.size ≤ 40 := by
  cases T <;> cases h <;> decide

/-- Data values that validate: version, constant and size belong together. -/
theorem validateData_split {v : Nat} {mid chk : List Nat} (hlen : chk.length = 6) :
    validateData (v :: mid ++ chk) = .ok T ↔ ∃ k, witnessKind T = some k ∧ v = k.version ∧
        bech32Polymod (bech32HrpExpand (text ['b', 'c']) ++ (v :: mid ++ chk)) = k.const ∧
        ∃ out, convertBits mid 5 8 false = .ok out ∧ out.length = k.size := by
  have hmid : ((v :: mid ++ chk).take ((v :: mid ++ chk).length - 6)).drop 1 = mid := by
    have htake : (v :: mid ++ chk).length - 6 = (v :: mid).length := by
      rw [length_append, hlen, Nat.add_sub_cancel]
    rw [htake, take_left]
    rfl
  have hhead : (v :: mid ++ chk).headD 0 = v := rfl
  unfold validateData
  simp only [hmid, hhead]
  constructor
  · intro h
    by_cases hv : v > 16
    · rw [if_pos hv] at h
      cases h
    rw [if_neg hv] at h
    by_cases hpoly : bech32Polymod (bech32HrpExpand (text ['b', 'c']) ++ (v :: mid ++ chk)) =
        if v ≠ 0 then bech32mConst else bech32Const
    · rw [if_neg (not_not.mpr hpoly)] at h
      cases hconv : convertBits mid 5 8 false with
      | error e =>
        rw [hconv] at h
        cases h
      | ok out =>
        rw [hconv] at h
        change (if out.length < 2 ∨ out.length > 40 then _ else _) = _ at h
        split at h
        · cases h
        obtain ⟨k, hk, rfl, hsize⟩ := classifyWitnessProgram_eq_ok.mp h
        exact ⟨k, hk, rfl, hpoly.trans (witnessKind_bounds hk).2.1, out, rfl, hsize⟩
    · rw [if_pos hpoly] at h
      cases h
  · rintro ⟨k, hk, rfl, hpoly, out, hconv, hsize⟩
    obtain ⟨hversion, hconst, -, hlow, hhigh⟩ := witnessKind_bounds hk
    rw [if_neg (by omega), hconst, if_neg (not_not.mpr hpoly), hconv]
    show (if out.length < 2 ∨ out.length > 40 then _ else _) = _
    rw [if_neg (by omega)]
    exact classifyWitnessProgram_eq_ok.mpr ⟨k, hk, rfl, hsize⟩

/-- Data values validate exactly if they are those of the reference. -/
theorem validateData_eq_ok {data : List Nat} (hdata : DataPart data) : validateData data = .ok T ↔
      ∃ k, witnessKind T = some k ∧ ∃ program : List UInt8,
        program.length = k.size ∧ data = refData k program := by
  have hshort := hdata.short
  -- Version, program and the six values of the checksum.
  obtain ⟨v, mid, chk, rfl, hlen⟩ : ∃ v mid chk, data = v :: mid ++ chk ∧ chk.length = 6 := by
    cases data with
    | nil => cases hshort
    | cons v rest =>
      have hrest : 7 ≤ rest.length := Nat.le_of_succ_le_succ hshort
      refine ⟨v, rest.take (rest.length - 6), rest.drop (rest.length - 6), ?_, ?_⟩
      · rw [cons_append, take_append_drop]
      · rw [length_drop]
        omega
  have hbody : ∀ x ∈ bech32HrpExpand (text ['b', 'c']) ++ v :: mid, x < 2 ^ 5 := by
    intro x hx
    obtain hhrp | hx := mem_append.mp hx
    · exact hrpValues_lt x hhrp
    · exact hdata.lt x (mem_append_left _ hx)
  have hchk : ∀ x ∈ chk, x < 2 ^ 5 := fun x hx => hdata.lt x (mem_append_right _ hx)
  rw [validateData_split hlen, ← append_assoc]
  constructor
  · rintro ⟨k, hk, rfl, hpoly, out, hconv, hsize⟩
    obtain ⟨hout, rfl⟩ := convertBits_eq_ok_iff_groups.mp hconv
    have hsum := (bech32Polymod_eq_iff hbody hchk hlen (witnessKind_bounds hk).2.2.1).mp hpoly
    refine ⟨k, hk, out.map UInt8.ofNat, by rw [length_map, hsize], ?_⟩
    unfold refData
    rw [map_toNat_ofNat hout, hsum]
  · rintro ⟨k, hk, program, hsize, heq⟩
    unfold refData at heq
    obtain ⟨hhead, hsum⟩ := append_inj' heq (by rw [hlen, refChecksum_length])
    obtain ⟨rfl, rfl⟩ := cons.inj hhead
    refine ⟨k, hk, rfl, ?_, program.map UInt8.toNat, ?_, by rw [length_map, hsize]⟩
    · exact (bech32Polymod_eq_iff hbody hchk hlen (witnessKind_bounds hk).2.2.1).mpr hsum
    · exact convertBits_eq_ok_iff_groups.mpr ⟨map_toNat_lt program, rfl⟩

theorem length_fiveBitGroups (bs : List Bool) :
    bs.length ≤ 5 * (fiveBitGroups bs).length ∧ 5 * (fiveBitGroups bs).length < bs.length + 5 := by
  obtain ⟨-, n, hn, hbits⟩ := fiveBitGroups_spec bs
  have hlen := congrArg length hbits
  rw [length_allBits, length_append, length_replicate] at hlen
  omega

/-- The reference stays within the bounds of the string format. -/
theorem refData_dataPart {k : WitnessKind} (hk : witnessKind T = some k) {program : List UInt8}
    (hsize : program.length = k.size) : DataPart (refData k program) := by
  obtain ⟨hversion, -, -, hlow, hhigh⟩ := witnessKind_bounds hk
  have hgroups := length_fiveBitGroups (allBits 8 (program.map UInt8.toNat))
  rw [length_allBits, length_map, hsize] at hgroups
  have hlen : (refData k program).length =
      (fiveBitGroups (allBits 8 (program.map UInt8.toNat))).length + 7 := by
    unfold refData
    rw [length_append, refChecksum_length, length_cons]
  refine ⟨?_, by omega, by omega⟩
  intro v hv
  obtain hbody | hsum := mem_append.mp hv
  · obtain rfl | hgroup := mem_cons.mp hbody
    · omega
    · exact (fiveBitGroups_spec _).1 v hgroup
  · exact refChecksum_lt hsum

/-- The strings accepted are the reference encodings and their upper case up
to the KELVIN SIGN. -/
theorem validateBech32Address_eq_ok (m : CaseMapping) : validateBech32Address m s = .ok T ↔
      ∃ k, witnessKind T = some k ∧ ∃ program : List UInt8, program.length = k.size ∧
        (s = text (refEncode k program) ∨
          kelvinToK s = text ((refEncode k program).map toUpper)) := by
  constructor
  · intro h
    cases hdec : decodeBech32String m s with
    | error e =>
      rw [validateBech32Address, hdec] at h
      cases h
    | ok data =>
      rw [validateBech32Address, hdec] at h
      obtain ⟨hdata, hform⟩ := (decodeBech32String_eq_ok m).mp hdec
      obtain ⟨k, hk, program, hsize, rfl⟩ := (validateData_eq_ok hdata).mp h
      exact ⟨k, hk, program, hsize, hform⟩
  · rintro ⟨k, hk, program, hsize, hform⟩
    have hdata := refData_dataPart hk hsize
    have hdec := (decodeBech32String_eq_ok m).mpr ⟨hdata, hform⟩
    rw [validateBech32Address, hdec]
    exact (validateData_eq_ok hdata).mpr ⟨k, hk, program, hsize, rfl⟩

/-! ## The addresses of the BIPs -/

def isUpperByte (b : UInt8) : Bool := 0x41 ≤ b && b ≤ 0x5A

def isLowerByte (b : UInt8) : Bool := 0x61 ≤ b && b ≤ 0x7A

/-- Lower case of the ASCII letters alone. -/
def asciiLower (s : GoString) : GoString := s.map fun b => if isUpperByte b then b + 32 else b

/-- The strings that BIP-173 and BIP-350 admit for an address type. -/
structure RefAddress (T : AddressType) (s : GoString) : Prop where
  ascii : ∀ b ∈ s, b.toNat < 128
  singleCase : (∀ b ∈ s, isUpperByte b = false) ∨ ∀ b ∈ s, isLowerByte b = false
  encodes : ∃ k, witnessKind T = some k ∧ ∃ program : List UInt8, program.length = k.size ∧
    (s = text (refEncode k program) ∨ asciiLower s = text (refEncode k program))

/-- The case of the bytes of a lower-case character and of its upper case. -/
theorem asciiByte_case {c : Char} (hc : c.toNat < 128) (hlow : c.toLower = c) :
    isUpperByte (asciiByte c) = false ∧ isLowerByte (asciiByte c.toUpper) = false ∧
      (if isUpperByte (asciiByte c.toUpper) then asciiByte c.toUpper + 32
        else asciiByte c.toUpper) = asciiByte c := by
  revert hlow
  exact forall_ascii (P := fun c => c.toLower = c →
      isUpperByte (asciiByte c) = false ∧ isLowerByte (asciiByte c.toUpper) = false ∧
      (if isUpperByte (asciiByte c.toUpper) then asciiByte c.toUpper + 32
        else asciiByte c.toUpper) = asciiByte c)
    (by decide +kernel) hc

/-- An upper-case byte is the upper case of its lower case. -/
theorem upper_of_asciiLower {c d : Char} (hc : c.toNat < 128) (hd : d.toNat < 128)
    (hnot : isLowerByte (asciiByte c) = false)
    (h : (if isUpperByte (asciiByte c) then asciiByte c + 32 else asciiByte c) = asciiByte d) :
    c = d.toUpper := by
  have hcheck : ∀ c : Char, c.toNat < 128 → isLowerByte (asciiByte c) = false →
      asciiByte c = asciiByte (ofNat
        (if isUpperByte (asciiByte c) then asciiByte c + 32 else asciiByte c).toNat).toUpper := by
    intro c hc
    exact forall_ascii (P := fun c => isLowerByte (asciiByte c) = false →
      asciiByte c = asciiByte (ofNat
        (if isUpperByte (asciiByte c) then asciiByte c + 32 else asciiByte c).toNat).toUpper)
      (by decide +kernel) hc
  have hbyte := hcheck c hc hnot
  rw [h, toNat_asciiByte hd, ofNat_toNat] at hbyte
  exact asciiByte_inj hc (toNat_toUpper_lt hd) hbyte

theorem asciiLower_text_upper {cs : List Char} (hcs : LowerText cs) :
    asciiLower (text (cs.map toUpper)) = text cs := by
  unfold asciiLower text
  rw [map_map, map_map]
  apply map_congr_left
  intro c hc
  exact (asciiByte_case (hcs c hc).1 (hcs c hc).2.1).2.2

/-- A string of ASCII bytes is a text. -/
theorem exists_text (h : ∀ b ∈ s, b.toNat < 128) :
    ∃ cs, (∀ c ∈ cs, c.toNat < 128) ∧ s = text cs := by
  have hnat : ∀ b ∈ s, (ofNat b.toNat).toNat = b.toNat := by
    intro b hb
    exact toNat_charOfNat (Or.inl (by have := h b hb; omega))
  refine ⟨s.map fun b => ofNat b.toNat, ?_, ?_⟩
  · intro c hc
    obtain ⟨b, hb, rfl⟩ := mem_map.mp hc
    rw [hnat b hb]
    exact h b hb
  · unfold text
    rw [map_map]
    conv_lhs => rw [← map_id s]
    apply map_congr_left
    intro b hb
    show b = UInt8.ofNat (ofNat b.toNat).toNat
    rw [hnat b hb, UInt8.ofNat_toNat]

/-- Both texts are walked together: each byte determines its upper case. -/
theorem map_upper_of_lower {cs ds : List Char} (hcs : ∀ c ∈ cs, c.toNat < 128)
    (hds : ∀ d ∈ ds, d.toNat < 128) (hnot : ∀ c ∈ cs, isLowerByte (asciiByte c) = false)
    (h : cs.map ((fun b => if isUpperByte b then b + 32 else b) ∘ asciiByte) =
      ds.map asciiByte) : cs = ds.map toUpper := by
  induction cs generalizing ds with
  | nil =>
    cases ds with
    | nil => rfl
    | cons d ds => cases h
  | cons c cs ih =>
    cases ds with
    | nil => cases h
    | cons d ds =>
      obtain ⟨hhead, htail⟩ := cons.inj h
      have hc : c = d.toUpper :=
        upper_of_asciiLower (hcs c mem_cons_self) (hds d mem_cons_self)
          (hnot c mem_cons_self) hhead
      have hcs' : cs = ds.map toUpper :=
        ih (fun x hx => hcs x (mem_cons_of_mem _ hx))
          (fun x hx => hds x (mem_cons_of_mem _ hx))
          (fun x hx => hnot x (mem_cons_of_mem _ hx)) htail
      rw [map_cons, hc, hcs']

/-- A single-case ASCII string with the lower case `ds`. -/
theorem text_of_asciiLower {ds : List Char} (hds : ∀ d ∈ ds, d.toNat < 128)
    (hascii : ∀ b ∈ s, b.toNat < 128)
    (hcase : (∀ b ∈ s, isUpperByte b = false) ∨ ∀ b ∈ s, isLowerByte b = false)
    (h : asciiLower s = text ds) : s = text ds ∨ s = text (ds.map toUpper) := by
  obtain ⟨cs, hcs, rfl⟩ := exists_text hascii
  obtain hlow | hup := hcase
  · left
    rw [← h]
    unfold asciiLower
    conv_lhs => rw [← map_id (text cs)]
    apply map_congr_left
    intro b hb
    rw [hlow b hb]
    rfl
  · right
    have hnot : ∀ c ∈ cs, isLowerByte (asciiByte c) = false := fun c hc => hup _ (mem_map_of_mem hc)
    unfold asciiLower text at h
    rw [map_map] at h
    rw [map_upper_of_lower hcs hds hnot h]

theorem refEncode_lower {k : WitnessKind} (hk : witnessKind T = some k) {program : List UInt8}
    (hsize : program.length = k.size) : LowerText (refEncode k program) :=
  addressText_lower (refData_dataPart hk hsize).lt

/-- The admitted strings are the reference encoding and its upper case. -/
theorem refAddress_iff : RefAddress T s ↔
      ∃ k, witnessKind T = some k ∧ ∃ program : List UInt8, program.length = k.size ∧
        (s = text (refEncode k program) ∨ s = text ((refEncode k program).map toUpper)) := by
  constructor
  · rintro ⟨hascii, hcase, k, hk, program, hsize, hform⟩
    have hlow := refEncode_lower hk hsize
    refine ⟨k, hk, program, hsize, ?_⟩
    obtain heq | heq := hform
    · exact .inl heq
    · exact text_of_asciiLower (fun c hc => (hlow c hc).1) hascii hcase heq
  · rintro ⟨k, hk, program, hsize, hform⟩
    have hlow := refEncode_lower hk hsize
    obtain rfl | rfl := hform
    · refine ⟨?_, .inl ?_, k, hk, program, hsize, .inl rfl⟩
      · intro b hb
        obtain ⟨c, hc, rfl⟩ := mem_map.mp hb
        rw [toNat_asciiByte (hlow c hc).1]
        exact (hlow c hc).1
      · intro b hb
        obtain ⟨c, hc, rfl⟩ := mem_map.mp hb
        exact (asciiByte_case (hlow c hc).1 (hlow c hc).2.1).1
    · refine ⟨?_, .inr ?_, k, hk, program, hsize, .inr (asciiLower_text_upper hlow)⟩
      · intro b hb
        obtain ⟨u, hu, rfl⟩ := mem_map.mp hb
        obtain ⟨c, hc, rfl⟩ := mem_map.mp hu
        rw [toNat_asciiByte (toNat_toUpper_lt (hlow c hc).1)]
        exact toNat_toUpper_lt (hlow c hc).1
      · intro b hb
        obtain ⟨u, hu, rfl⟩ := mem_map.mp hb
        obtain ⟨c, hc, rfl⟩ := mem_map.mp hu
        exact (asciiByte_case (hlow c hc).1 (hlow c hc).2.1).2.1

/-! ## What is accepted beyond them -/

theorem upper_ascii_of_lower {cs : List Char} (hcs : LowerText cs) :
    ∀ c ∈ cs.map toUpper, c.toNat < 128 := by
  intro c hc
  obtain ⟨d, hd, rfl⟩ := mem_map.mp hc
  exact toNat_toUpper_lt (hcs d hd).1

theorem kelvinSign_notMem_runes (h : ∀ b ∈ s, b.toNat < 128) : kelvinSign ∉ runes s := by
  obtain ⟨cs, hcs, rfl⟩ := exists_text h
  rw [runes_text hcs]
  intro hmem
  exact absurd (hcs _ hmem) (by decide)

/-- Without a KELVIN SIGN there is nothing to replace. -/
theorem eq_text_of_kelvinToK {cs : List Char} (hcs : ∀ c ∈ cs, c.toNat < 128)
    (hk : kelvinSign ∉ runes s) : kelvinToK s = text cs ↔ s = text cs := by
  have hmap : ((runes s).map fun c => if c = kelvinSign then 'K' else c) = runes s := by
    conv_rhs => rw [← map_id (runes s)]
    apply map_congr_left
    intro c hc
    rw [if_neg fun heq : c = kelvinSign => hk (heq ▸ hc)]
    rfl
  unfold kelvinToK
  rw [hmap, encodeRunes_eq_text hcs]
  constructor
  · intro h
    have hs : s = text (runes s) := eq_map_of_runes_ascii (h ▸ hcs)
    rw [h] at hs
    exact hs
  · rintro rfl
    exact runes_text hcs

/-- A KELVIN SIGN leaves a capital letter behind. -/
theorem kelvinToK_ne_lower {cs : List Char} (hcs : LowerText cs) (hk : kelvinSign ∈ runes s) :
    kelvinToK s ≠ text cs := by
  intro h
  have hrunes := (encodeRunes_eq_text fun c hc => (hcs c hc).1).mp h
  have hmem : 'K' ∈ cs := by
    rw [← hrunes]
    exact mem_map.mpr ⟨kelvinSign, hk, if_pos rfl⟩
  exact absurd (hcs 'K' hmem).2.1 (by decide)

theorem validate_iff_refAddress (m : CaseMapping) (hk : kelvinSign ∉ runes s) (T : AddressType) :
    validateBech32Address m s = .ok T ↔ RefAddress T s := by
  rw [validateBech32Address_eq_ok, refAddress_iff]
  apply exists_congr
  intro k
  apply and_congr_right
  intro hkind
  apply exists_congr
  intro program
  apply and_congr_right
  intro hsize
  rw [eq_text_of_kelvinToK (upper_ascii_of_lower (refEncode_lower hkind hsize)) hk]

theorem validate_iff_refAddress_kelvinToK (m : CaseMapping) (hk : kelvinSign ∈ runes s)
    (T : AddressType) : validateBech32Address m s = .ok T ↔ RefAddress T (kelvinToK s) := by
  rw [validateBech32Address_eq_ok, refAddress_iff]
  apply exists_congr
  intro k
  apply and_congr_right
  intro hkind
  apply exists_congr
  intro program
  apply and_congr_right
  intro hsize
  have hlow := refEncode_lower hkind hsize
  -- In lower case neither string can be the reference.
  have hne : s ≠ text (refEncode k program) := by
    rintro rfl
    rw [runes_text fun c hc => (hlow c hc).1] at hk
    exact absurd (hlow _ hk).1 (by decide)
  rw [or_iff_right hne, or_iff_right (kelvinToK_ne_lower hlow hk)]

/-- Validation and the BIPs agree on a string, for every address type, unless
the string is an upper-case address with a KELVIN SIGN in place of a `K`. -/
theorem validateBech32Address_exact_iff (m : CaseMapping) (s : GoString) :
    (∀ T, validateBech32Address m s = .ok T ↔ RefAddress T s) ↔
      ¬ (kelvinSign ∈ runes s ∧ ∃ T, RefAddress T (kelvinToK s)) := by
  constructor
  · rintro hexact ⟨hk, T, href⟩
    have hvalid := (validate_iff_refAddress_kelvinToK m hk T).mpr href
    exact kelvinSign_notMem_runes ((hexact T).mp hvalid).ascii hk
  · intro hno T
    by_cases hk : kelvinSign ∈ runes s
    · rw [validate_iff_refAddress_kelvinToK m hk]
      constructor
      · intro href
        exact absurd ⟨hk, T, href⟩ hno
      · intro href
        exact absurd hk (kelvinSign_notMem_runes href.ascii)
    · exact validate_iff_refAddress m hk T

/-- `BC1QW508D6QEJXTDG4Y5R3ZARVARY0C5XW7KV8F3T4` with a KELVIN SIGN. -/
def kelvinAddress : GoString :=
  text "BC1QW508D6QEJXTDG4Y5R3ZARVARY0C5XW7".toList ++ String.utf8EncodeChar kelvinSign ++
    text "V8F3T4".toList

theorem kelvinAddress_accepted :
    ¬ ∀ T, validateBech32Address CaseMapping.ascii kelvinAddress = .ok T ↔
      RefAddress T kelvinAddress := by
  intro h
  have hvalid : validateBech32Address CaseMapping.ascii kelvinAddress = .ok .p2wpkh := by
    decide +kernel
  exact absurd (((h .p2wpkh).mp hvalid).ascii 0xE2 (by decide)) (by decide)

end Otedama.Btccrypto
