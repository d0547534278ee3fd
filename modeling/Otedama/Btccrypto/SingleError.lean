import Otedama.Btccrypto.Reference

/-! # One wrong character

A segwit address with one wrong character is rejected. A wrong data
character changes the checksum register by an amount that never dies
out. The version character also selects the constant that the register
is compared with; there the only other version with an address type is
one, and the change that it makes is not the difference of the constants. -/

namespace Otedama.Btccrypto

open GoString BitString Bytes Checksum List

/-! ## The register forgets no change -/

/-- The low cell shows what was shifted out. -/
theorem feedback_low : ∀ top < 32, feedback top % 32 = 0 → top = 0 := by decide +kernel

theorem polymodRegister_nonsingular : polymodRegister.Nonsingular := by
  intro a ha hzero
  have htop : a >>> 25 < 32 := by
    rw [Nat.shiftRight_eq_div_pow]
    omega
  -- The low cell of the shifted state comes from the feedback alone.
  have hlow : feedback (a >>> 25) % 2 ^ 5 = 0 := by
    have hmod := congrArg (· % 2 ^ 5) hzero
    change ((a % 2 ^ 25) <<< 5 ^^^ feedback (a >>> 25)) % 2 ^ 5 = 0 % 2 ^ 5 at hmod
    rwa [Nat.xor_mod_two_pow, Nat.shiftLeft_eq, Nat.mul_mod_left, Nat.zero_xor, Nat.zero_mod]
      at hmod
  have hempty := feedback_low _ htop hlow
  have hsmall : a < 2 ^ (5 * 5) := by
    rw [Nat.shiftRight_eq_div_pow] at hempty
    omega
  rw [polymodRegister.shift_small a hsmall, Nat.shiftLeft_eq] at hzero
  omega

/-! ## The data values -/

/-- The value of the character at a byte. -/
def byteValue (b : UInt8) : Nat := bech32Charset.idxOf (Char.ofNat b.toNat)

theorem byteValue_charOf : ∀ v < 32, byteValue (asciiByte (charOf bech32Charset v)) = v := by
  decide +kernel

/-- The data values are read off the text one by one. -/
theorem map_byteValue_text {data : List Nat} (h : ∀ v ∈ data, v < 32) :
    ((text (addressText data)).drop 3).map byteValue = data := by
  show ((data.map (charOf bech32Charset)).map asciiByte).map byteValue = data
  rw [map_map, map_map]
  conv_rhs => rw [← map_id data]
  apply map_congr_left
  intro v hv
  exact byteValue_charOf v (h v hv)

/-- What is accepted of an ASCII string. -/
structure Reads (s : GoString) (k : WitnessKind) (program : List UInt8) : Prop where
  size : program.length = k.size
  kind : ∃ T, witnessKind T = some k
  form : s = text (refEncode k program) ∨ s = text ((refEncode k program).map Char.toUpper)

theorem exists_reads (m : CaseMapping) {s : GoString} {T : AddressType}
    (hascii : ∀ b ∈ s, b.toNat < 128) (h : validateBech32Address m s = .ok T) :
    ∃ k program, Reads s k program := by
  have href := (validate_iff_refAddress m (kelvinSign_notMem_runes hascii) T).mp h
  obtain ⟨k, hk, program, hsize, hform⟩ := refAddress_iff.mp href
  exact ⟨k, program, hsize, ⟨T, hk⟩, hform⟩

section

variable {s : GoString} {k : WitnessKind} {program : List UInt8}

theorem Reads.dataPart (h : Reads s k program) : DataPart (refData k program) := by
  obtain ⟨T, hk⟩ := h.kind
  exact refData_dataPart hk h.size

theorem Reads.asciiLower (h : Reads s k program) :
    Otedama.Btccrypto.asciiLower s = text (addressText (refData k program)) := by
  have hlow := addressText_lower h.dataPart.lt
  obtain rfl | rfl := h.form
  · unfold Otedama.Btccrypto.asciiLower
    conv_rhs => rw [← map_id (text (addressText (refData k program)))]
    apply map_congr_left
    intro b hb
    obtain ⟨c, hc, rfl⟩ := mem_map.mp hb
    rw [(asciiByte_case (hlow c hc).1 (hlow c hc).2.1).1]
    rfl
  · exact asciiLower_text_upper hlow

theorem Reads.values (h : Reads s k program) :
    ((Otedama.Btccrypto.asciiLower s).drop 3).map byteValue = refData k program := by
  rw [h.asciiLower]
  exact map_byteValue_text h.dataPart.lt

/-- The checksum of what is accepted. -/
theorem Reads.polymod (h : Reads s k program) :
    bech32Polymod (bech32HrpExpand (text ['b', 'c']) ++ refData k program) = k.const := by
  obtain ⟨T, hk⟩ := h.kind
  have hlt := h.dataPart.lt
  unfold refData at hlt ⊢
  rw [← append_assoc]
  apply (bech32Polymod_eq_iff ?_ (fun v hv => refChecksum_lt hv) (refChecksum_length _ _)
    (witnessKind_bounds hk).2.2.1).mpr rfl
  intro v hv
  obtain hhrp | hbody := mem_append.mp hv
  · exact hrpValues_lt v hhrp
  · exact hlt v (mem_append_left _ hbody)

end

/-! ## The two forms of an address -/

/-- The lower and the upper case differ in the first two positions. -/
theorem not_oneAtMost_upper (data : List Nat) :
    ¬ OneAtMost (text (addressText data)) (text ((addressText data).map Char.toUpper)) := by
  intro h
  -- Both strings start with two letters that have a case.
  have hlow : text (addressText data) = 98 :: 99 :: (text (addressText data)).drop 2 := rfl
  have hup : text ((addressText data).map Char.toUpper) =
      66 :: 67 :: (text ((addressText data).map Char.toUpper)).drop 2 := rfl
  rw [hlow, hup] at h
  obtain heq | ⟨pre, x, y, post, -, hs, ht⟩ := h
  · exact absurd (cons.inj heq).1 (by decide)
  · rcases pre with _ | ⟨p, pre⟩
    · obtain ⟨-, hs⟩ := cons.inj hs
      obtain ⟨-, ht⟩ := cons.inj ht
      exact absurd (cons.inj (hs.trans ht.symm)).1 (by decide)
    · have hp := (cons.inj hs).1.trans (cons.inj ht).1.symm
      exact absurd hp (by decide)

/-- With the same data the strings are the same. -/
theorem eq_of_same_data {a b : GoString} {k l : WitnessKind} {p q : List UInt8}
    (ha : Reads a k p) (hb : Reads b l q) (hdata : refData k p = refData l q)
    (h : OneAtMost a b) : a = b := by
  have hform := hb.form
  unfold refEncode at hform
  rw [← hdata] at hform
  obtain rfl | rfl := ha.form
  · obtain rfl | rfl := hform
    · rfl
    · exact absurd h (not_oneAtMost_upper _)
  · obtain rfl | rfl := hform
    · exact absurd h.symm (not_oneAtMost_upper _)
    · rfl

/-! ## One wrong value -/

/-- Fifty-two groups for a program of 32 bytes. -/
theorem length_refData {k : WitnessKind} {program : List UInt8} (h : program.length = 32) :
    (refData k program).length = 59 := by
  have hgroups := length_fiveBitGroups (allBits 8 (program.map UInt8.toNat))
  rw [length_allBits, length_map, h] at hgroups
  unfold refData
  rw [length_append, refChecksum_length, length_cons]
  omega

/-- The version selects the rest. -/
theorem kind_of_version {T U : AddressType} {k l : WitnessKind} (hk : witnessKind T = some k)
    (hl : witnessKind U = some l) : k.version < 2 ∧ (k.version = l.version → k.const = l.const) ∧
      (k.version = 1 → k.size = 32) ∧ k.const = if k.version = 0 then 1 else 0x2bc830a3 := by
  cases T <;> cases hk <;> cases U <;> cases hl <;> decide

theorem version_change : polymodRegister.shift^[58] 1 ≠ 1 ^^^ 0x2bc830a3 := by decide +kernel

section

variable {a b : GoString} {k l : WitnessKind} {p q : List UInt8} (ha : Reads a k p)
  (hb : Reads b l q) {pre post : List Nat} {x y : Nat}

include ha hb

/-- A wrong value moves the register. -/
theorem const_xor_const (hp : refData k p = pre ++ x :: post) (hq : refData l q = pre ++ y :: post)
    : k.const ^^^ l.const = polymodRegister.shift^[post.length] (x ^^^ y) := by
  rw [← ha.polymod, ← hb.polymod, bech32Polymod_eq_run, bech32Polymod_eq_run, hp, hq,
    ← append_assoc, ← append_assoc]
  exact polymodRegister.run_replace _ _ _ _ _

section

variable (hxy : x ≠ y) (hp : refData k p = pre ++ x :: post) (hq : refData l q = pre ++ y :: post)

include hxy hp hq

/-- The register never returns, so a wrong value needs another constant. -/
theorem const_ne : k.const ≠ l.const := by
  intro hconst
  have hx : x < 2 ^ 5 := ha.dataPart.lt x (by rw [hp]; simp)
  have hy : y < 2 ^ 5 := hb.dataPart.lt y (by rw [hq]; simp)
  have hlt : x ^^^ y < 2 ^ (5 * (5 + 1)) := lt_of_lt_of_le (Nat.xor_lt_two_pow hx hy) (by decide)
  have hne : x ^^^ y ≠ 0 := mt Nat.xor_eq_zero_iff.mp hxy
  apply polymodRegister_nonsingular.iterate_ne_zero hlt hne post.length
  rw [← const_xor_const ha hb hp hq, hconst, Nat.xor_self]

theorem not_one_wrong_value : False := by
  have hconst := const_ne ha hb hxy hp hq
  have hxor := const_xor_const ha hb hp hq
  obtain ⟨T, hk⟩ := ha.kind
  obtain ⟨U, hl⟩ := hb.kind
  obtain ⟨hkv, hsame, hk32, hkc⟩ := kind_of_version hk hl
  obtain ⟨hlv, -, hl32, hlc⟩ := kind_of_version hl hk
  cases pre with
  | cons v pre =>
    -- The version is the same, and with it the constant.
    have hv : k.version = l.version := (cons.inj hp).1.trans (cons.inj hq).1.symm
    exact hconst (hsame hv)
  | nil =>
    have hx : k.version = x := (cons.inj hp).1
    have hy : l.version = y := (cons.inj hq).1
    -- One of the versions is one, so the program has 32 bytes.
    have hlen : post.length = 58 := by
      by_cases hone : k.version = 1
      · have hdata := length_refData (k := k) (ha.size.trans (hk32 hone))
        rw [hp] at hdata
        simpa using hdata
      · have hone' : l.version = 1 := by omega
        have hdata := length_refData (k := l) (hb.size.trans (hl32 hone'))
        rw [hq] at hdata
        simpa using hdata
    have hbit : x ^^^ y = 1 ∧ k.const ^^^ l.const = 1 ^^^ 0x2bc830a3 := by
      rw [hkc, hlc]
      obtain ⟨rfl, rfl⟩ | ⟨rfl, rfl⟩ : (x = 0 ∧ y = 1) ∨ (x = 1 ∧ y = 0) := by omega
      · rw [hx, hy]
        decide
      · rw [hx, hy]
        decide
    rw [hlen, hbit.1, hbit.2] at hxor
    exact version_change hxor.symm

end

end

/-- One wrong character in an accepted ASCII string is always caught. -/
theorem single_error_rejected (m : CaseMapping) {a b : GoString} {T : AddressType}
    (ha : ∀ x ∈ a, x.toNat < 128) (hb : ∀ x ∈ b, x.toNat < 128) (hlen : a.length = b.length)
    (hdiff : ∃! i : Nat, a[i]? ≠ b[i]?) (hvalid : validateBech32Address m a = .ok T) :
    ∃ e, validateBech32Address m b = .error e := by
  have hone := oneAtMost_of_existsUnique hlen hdiff
  cases hb' : validateBech32Address m b with
  | error e => exact ⟨e, rfl⟩
  | ok U =>
    obtain ⟨k, p, hka⟩ := exists_reads m ha hvalid
    obtain ⟨l, q, hlb⟩ := exists_reads m hb hb'
    have hdata : OneAtMost (refData k p) (refData l q) := by
      rw [← hka.values, ← hlb.values]
      exact ((hone.map _).drop 3).map byteValue
    obtain heq | ⟨pre, x, y, post, hxy, hp, hq⟩ := hdata
    · obtain ⟨i, hi, -⟩ := hdiff
      rw [eq_of_same_data hka hlb heq hone] at hi
      exact absurd rfl hi
    · exact (not_one_wrong_value hka hlb hxy hp hq).elim

/-- The sample address with the version character replaced. -/
def mistypedAddress : GoString := text "bc1pw508d6qejxtdg4y5r3zarvary0c5xw7kv8f3t4".toList

theorem sampleAddress_differs : ∃! i : Nat, sampleAddress[i]? ≠ mistypedAddress[i]? := by
  have hcheck : ∀ i < 42, sampleAddress[i]? ≠ mistypedAddress[i]? → i = 3 := by decide +kernel
  refine ⟨3, by decide, ?_⟩
  intro i hi
  by_cases hlt : i < 42
  · exact hcheck i hlt hi
  · have hge : 42 ≤ i := Nat.not_lt.mp hlt
    rw [getElem?_eq_none hge, getElem?_eq_none hge] at hi
    exact absurd rfl hi

theorem mistypedAddress_rejected :
    ∃ e, validateBech32Address CaseMapping.ascii mistypedAddress = .error e :=
  single_error_rejected CaseMapping.ascii (a := sampleAddress) (T := .p2wpkh)
    (by decide +kernel) (by decide +kernel) (by decide +kernel) sampleAddress_differs
    (by decide +kernel)

end Otedama.Btccrypto
