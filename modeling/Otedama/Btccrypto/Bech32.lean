import Otedama.Framework.CaseMapping
import Otedama.Framework.Checksum
import Otedama.Framework.Strings
import Mathlib.Data.List.Nodup

/-! # SegWit addresses

The validation of bech32 and bech32m addresses: surface rules, checksum,
and the decoding of the witness program.

Go's `int` has 64 bits. The values and the checksum stay far below that;
the accumulator of `convertBits` does not, and is kept modulo `2 ^ 64`.
Its sign does not matter, as only low-order bits are ever read. Values
are indices into the character set, so none is negative. -/

namespace Otedama.Btccrypto

open GoString BitString List

/-! ## Errors and types -/

inductive AddressType where
  | unknown
  | p2pkh
  | p2sh
  | p2wpkh
  | p2wsh
  | p2tr
  | p2mr
  deriving DecidableEq, Repr

inductive AddressError where
  /-- `ErrNotBech32`: `btccrypto: not a bech32 address` -/
  | notBech32
  /-- `btccrypto: bech32 address has mixed case` -/
  | mixedCase
  /-- `btccrypto: bech32 address too long (%d > 90)` -/
  | tooLong (len : Nat)
  /-- `btccrypto: bech32 address has no separator` -/
  | noSeparator
  /-- `btccrypto: unsupported human-readable part %q (mainnet 'bc' only)` -/
  | humanReadablePart (hrp : GoString)
  /-- `btccrypto: bech32 data part too short` -/
  | dataTooShort
  /-- `btccrypto: invalid bech32 character %q` -/
  | bech32Character (c : Char)
  /-- `btccrypto: invalid witness version %d` -/
  | witnessVersion (version : Nat)
  /-- `btccrypto: bech32 checksum failed (likely a typo in the address)` -/
  | bech32Checksum
  /-- `btccrypto: convertBits: value %d out of range` -/
  | convertRange (v : Nat)
  /-- `btccrypto: convertBits: invalid padding` -/
  | convertPadding
  /-- `btccrypto: bech32 program decode: %w` -/
  | programDecode (e : AddressError)
  /-- `btccrypto: witness program length %d out of range` -/
  | programLength (len : Nat)
  /-- `btccrypto: v0 witness program must be 20 or 32 bytes, got %d` -/
  | v0Length (len : Nat)
  /-- `btccrypto: v1 (Taproot) program must be 32 bytes, got %d` -/
  | v1Length (len : Nat)
  /-- `btccrypto: unsupported witness version %d` -/
  | unsupportedVersion (version : Nat)
  /-- `ErrNotBase58`: `btccrypto: not a base58 address` -/
  | notBase58
  /-- `invalid base58 character %q` -/
  | base58Character (c : Char)
  /-- `btccrypto: %w` -/
  | base58Decode (e : AddressError)
  /-- `btccrypto: base58 address decodes to %d bytes, want 25` -/
  | base58Length (len : Nat)
  /-- `btccrypto: base58 checksum failed (likely a typo in the address)` -/
  | base58Checksum
  /-- `btccrypto: unsupported base58 version byte 0x%02x (mainnet P2PKH/P2SH only)` -/
  | base58Version (version : UInt8)
  /-- `ErrUnrecognisedAddress`: `btccrypto: unrecognized address format (not
      bech32 or base58 mainnet)` -/
  | unrecognised
  /-- `btccrypto: no standard locking script for address type %s` -/
  | noScript (type : AddressType)
  deriving DecidableEq, Repr

/-- `errors.Is`: the error itself or one that it wraps. -/
def AddressError.is (target : AddressError) : AddressError → Bool
  | .programDecode e => .programDecode e == target || AddressError.is target e
  | .base58Decode e => .base58Decode e == target || AddressError.is target e
  | e => e == target

/-! ## The source -/

def bech32Charset : List Char := "qpzry9x8gf2tvdw0s3jn54khce6mua7l".toList

def bech32Const : Nat := 1

def bech32mConst : Nat := 0x2bc830a3

def bech32Gen : List Nat := [0x3b6a57b2, 0x26508e6d, 0x1ea119fa, 0x3d4233dd, 0x2a1462b3]

/-- One round of the loop of `bech32Polymod`. -/
def polymodStep (chk v : Nat) : Nat :=
  let top := chk >>> 25
  (List.range 5).foldl
    (fun chk i => if (top >>> i) &&& 1 = 1 then chk ^^^ bech32Gen.getD i 0 else chk)
    ((chk &&& 0x1ffffff) <<< 5 ^^^ v)

def bech32Polymod (values : List Nat) : Nat := values.foldl polymodStep 1

def bech32HrpExpand (hrp : GoString) : List Nat :=
  (runes hrp).map (fun c => c.toNat >>> 5) ++ [0] ++ (runes hrp).map fun c => c.toNat &&& 31

/-- The inner loop of `convertBits`: while there is a whole group, append it.
The fuel is the number of bits, and each round takes `toBits` of them. -/
def emitGroups (acc toBits : Nat) : Nat → Nat → List Nat → Nat × List Nat
  | 0, bits, out => (bits, out)
  | fuel + 1, bits, out =>
      if bits ≥ toBits then
        emitGroups acc toBits fuel (bits - toBits)
          (out ++ [(acc >>> (bits - toBits)) &&& (2 ^ toBits - 1)])
      else (bits, out)

/-- The outer loop of `convertBits`. -/
def regroup (fromBits toBits : Nat) : List Nat → Nat → Nat → List Nat →
    Except AddressError (Nat × Nat × List Nat)
  | [], acc, bits, out => .ok (acc, bits, out)
  | v :: data, acc, bits, out =>
      if v >>> fromBits ≠ 0 then .error (.convertRange v)
      else
        let acc := (acc <<< fromBits ||| v) % 2 ^ 64
        let groups := emitGroups acc toBits (bits + fromBits) (bits + fromBits) out
        regroup fromBits toBits data acc groups.1 groups.2

/-- What `convertBits` does with the bits that are left over. -/
def finishGroups (fromBits toBits : Nat) (pad : Bool) :
    Nat × Nat × List Nat → Except AddressError (List Nat)
  | (acc, bits, out) =>
      let last := (acc <<< (toBits - bits)) &&& (2 ^ toBits - 1)
      if pad then
        if bits > 0 then .ok (out ++ [last]) else .ok out
      else if bits ≥ fromBits ∨ last ≠ 0 then .error .convertPadding
      else .ok out

def convertBits (data : List Nat) (fromBits toBits : Nat) (pad : Bool) :
    Except AddressError (List Nat) := do
  let state ← regroup fromBits toBits data 0 0 []
  finishGroups fromBits toBits pad state

/-- The loop over the runes of a text: the value of each is its index in the
alphabet. -/
def charValues (alphabet : List Char) (err : Char → AddressError) :
    List Char → Except AddressError (List Nat)
  | [] => .ok []
  | c :: cs =>
      match alphabet.idxOf? c with
      | none => .error (err c)
      | some i => do
          let vs ← charValues alphabet err cs
          .ok (i :: vs)

/-- The part of `decodeBech32String` behind the case normalisation. -/
def decodeLower (s : GoString) : Except AddressError (List Nat) :=
  if s.length > 90 then .error (.tooLong s.length)
  else
    match lastIndexByte (asciiByte '1') s with
    | none => .error .noSeparator
    | some pos =>
      if pos < 1 then .error .noSeparator
      else if s.take pos ≠ text ['b', 'c'] then .error (.humanReadablePart (s.take pos))
      else
        let dataPart := s.drop (pos + 1)
        if dataPart.length < 8 then .error .dataTooShort
        else charValues bech32Charset .bech32Character (runes dataPart)

def decodeBech32String (m : CaseMapping) (addr : GoString) : Except AddressError (List Nat) :=
  if ¬ text ['b', 'c', '1'] <+: addr ∧ ¬ text ['B', 'C', '1'] <+: addr then .error .notBech32
  else if addr ≠ m.toLower addr ∧ addr ≠ m.toUpper addr then .error .mixedCase
  else decodeLower (m.toLower addr)

def classifyWitnessProgram (version : Nat) (program : List Nat) :
    Except AddressError AddressType :=
  match version with
  | 0 =>
      if program.length = 20 then .ok .p2wpkh
      else if program.length = 32 then .ok .p2wsh
      else .error (.v0Length program.length)
  | 1 => if program.length ≠ 32 then .error (.v1Length program.length) else .ok .p2tr
  | version => .error (.unsupportedVersion version)

/-- The part of `ValidateBech32Address` behind `decodeBech32String`. -/
def validateData (data : List Nat) : Except AddressError AddressType :=
  let version := data.headD 0
  if version > 16 then .error (.witnessVersion version)
  else
    let wantConst := if version ≠ 0 then bech32mConst else bech32Const
    if bech32Polymod (bech32HrpExpand (text ['b', 'c']) ++ data) ≠ wantConst then
      .error .bech32Checksum
    else do
      let program ← (convertBits ((data.take (data.length - 6)).drop 1) 5 8 false).mapError
        .programDecode
      if program.length < 2 ∨ program.length > 40 then .error (.programLength program.length)
      else classifyWitnessProgram version program

def validateBech32Address (m : CaseMapping) (addr : GoString) :
    Except AddressError AddressType := do
  let data ← decodeBech32String m addr
  validateData data

/-! ## The checksum is a linear register -/

/-- What the five generators feed back for the bits shifted out. -/
def feedback (top : Nat) : Nat :=
  (List.range 5).foldl (fun c i => c ^^^ if top.testBit i then bech32Gen.getD i 0 else 0) 0

theorem foldl_feedback (top : Nat) (is : List Nat) (c d : Nat) :
    is.foldl (fun chk i => if (top >>> i) &&& 1 = 1 then chk ^^^ bech32Gen.getD i 0 else chk)
        (c ^^^ d) =
      c ^^^ is.foldl (fun c i => c ^^^ if top.testBit i then bech32Gen.getD i 0 else 0) d := by
  induction is generalizing d with
  | nil => rfl
  | cons i is ih =>
    have hbit : (top >>> i) &&& 1 = 1 ↔ top.testBit i = true := by
      rw [Nat.testBit_eq_decide_div_mod_eq, Nat.and_one_is_mod, Nat.shiftRight_eq_div_pow]
      simp
    rw [foldl_cons, foldl_cons]
    by_cases h : top.testBit i = true
    · rw [if_pos (hbit.mpr h), if_pos h, Nat.xor_assoc]
      exact ih _
    · rw [if_neg (mt hbit.mp h), if_neg h, Nat.xor_zero]
      exact ih _

theorem polymodStep_eq (chk v : Nat) :
    polymodStep chk v = (chk % 2 ^ 25) <<< 5 ^^^ feedback (chk >>> 25) ^^^ v := by
  have hmask : chk &&& 0x1ffffff = chk % 2 ^ 25 := Nat.and_two_pow_sub_one_eq_mod chk 25
  have hfold := foldl_feedback (chk >>> 25) (range 5) ((chk % 2 ^ 25) <<< 5 ^^^ v) 0
  rw [Nat.xor_zero] at hfold
  unfold polymodStep
  rw [hmask]
  refine hfold.trans ?_
  show (chk % 2 ^ 25) <<< 5 ^^^ v ^^^ feedback (chk >>> 25) = _
  rw [Nat.xor_assoc, Nat.xor_comm v, ← Nat.xor_assoc]

theorem ite_bit_xor (a b : Bool) (g : Nat) : (if (a ^^ b) = true then g else 0) =
      (if a = true then g else 0) ^^^ if b = true then g else 0 := by
  cases a <;> cases b <;> simp

theorem feedback_xor (a b : Nat) : feedback (a ^^^ b) = feedback a ^^^ feedback b := by
  have hfold : ∀ (is : List Nat) (c d : Nat),
      is.foldl (fun c i => c ^^^ if (a ^^^ b).testBit i then bech32Gen.getD i 0 else 0) (c ^^^ d) =
        is.foldl (fun c i => c ^^^ if a.testBit i then bech32Gen.getD i 0 else 0) c ^^^
          is.foldl (fun c i => c ^^^ if b.testBit i then bech32Gen.getD i 0 else 0) d := by
    intro is
    induction is with
    | nil =>
      intro c d
      rfl
    | cons i is ih =>
      intro c d
      rw [foldl_cons, foldl_cons, foldl_cons, ← ih, Nat.testBit_xor, ite_bit_xor]
      congr 1
      rw [Nat.xor_assoc, Nat.xor_assoc, Nat.xor_left_comm d]
  exact hfold (range 5) 0 0

theorem feedback_lt (top : Nat) : feedback top < 2 ^ 30 := by
  have hgen : ∀ i, bech32Gen.getD i 0 < 2 ^ 30 := by
    intro i
    rcases i with _ | _ | _ | _ | _ | i <;> simp [bech32Gen]
  have hfold : ∀ (is : List Nat) (c : Nat), c < 2 ^ 30 →
      is.foldl (fun c i => c ^^^ if top.testBit i then bech32Gen.getD i 0 else 0) c < 2 ^ 30 := by
    intro is
    induction is with
    | nil =>
      intro c hc
      exact hc
    | cons i is ih =>
      intro c hc
      rw [foldl_cons]
      apply ih
      apply Nat.xor_lt_two_pow hc
      split
      · exact hgen i
      · decide
  exact hfold _ 0 (by decide)

/-- The register of the checksum has six cells of five bits. -/
def polymodRegister : Checksum.Register 5 5 where
  shift c := (c % 2 ^ 25) <<< 5 ^^^ feedback (c >>> 25)
  shift_xor a b := by
    have hlow : ((a ^^^ b) % 2 ^ 25) <<< 5 = (a % 2 ^ 25) <<< 5 ^^^ (b % 2 ^ 25) <<< 5 := by
      rw [Nat.xor_mod_two_pow, Nat.shiftLeft_xor_distrib]
    rw [hlow, Nat.shiftRight_xor_distrib, feedback_xor, Nat.xor_assoc, Nat.xor_assoc,
      Nat.xor_left_comm ((b % 2 ^ 25) <<< 5)]
  shift_small a ha := by
    have hsmall : a < 2 ^ 25 := ha
    have hfeed : feedback 0 = 0 := by decide
    rw [Nat.mod_eq_of_lt hsmall, Nat.shiftRight_eq_div_pow, Nat.div_eq_of_lt hsmall, hfeed,
      Nat.xor_zero]
  shift_lt a _ := by
    have hlow : (a % 2 ^ 25) <<< 5 < 2 ^ 30 := by
      have hmod : a % 2 ^ 25 < 2 ^ 25 := Nat.mod_lt _ (by decide)
      rw [Nat.shiftLeft_eq]
      omega
    exact Nat.xor_lt_two_pow hlow (feedback_lt _)

theorem bech32Polymod_eq_run (values : List Nat) :
    bech32Polymod values = polymodRegister.run 1 values := by
  have hstep : polymodStep = polymodRegister.step := by
    funext chk v
    exact polymodStep_eq chk v
  unfold bech32Polymod
  rw [hstep]
  rfl

/-! ## Regrouping keeps the string of bits -/

theorem emitGroups_spec {toBits : Nat} (hto : 0 < toBits) (acc : Nat) {fuel n : Nat}
    (hfuel : n ≤ fuel) {out : List Nat} (hout : ∀ g ∈ out, g < 2 ^ toBits) :
    (emitGroups acc toBits fuel n out).1 < toBits ∧
      (∀ g ∈ (emitGroups acc toBits fuel n out).2, g < 2 ^ toBits) ∧
      allBits toBits (emitGroups acc toBits fuel n out).2 ++
          bits (emitGroups acc toBits fuel n out).1 acc = allBits toBits out ++ bits n acc := by
  induction fuel generalizing n out with
  | zero =>
    obtain rfl : n = 0 := by omega
    exact ⟨hto, hout, rfl⟩
  | succ fuel ih =>
    rw [emitGroups]
    split
    · rename_i hge
      rw [Nat.and_two_pow_sub_one_eq_mod]
      have hnew : ∀ g ∈ out ++ [(acc >>> (n - toBits)) % 2 ^ toBits], g < 2 ^ toBits := by
        intro g hg
        rw [mem_append, mem_singleton] at hg
        obtain hold | rfl := hg
        · exact hout g hold
        · exact Nat.mod_lt _ (Nat.two_pow_pos _)
      obtain ⟨hlt, hall, hbits⟩ := ih (n := n - toBits) (by omega) hnew
      refine ⟨hlt, hall, hbits.trans ?_⟩
      -- The group emitted is the high part of the bits in hand.
      have hsplit : bits n acc = bits toBits (acc >>> (n - toBits)) ++ bits (n - toBits) acc := by
        rw [← bits_add, Nat.add_sub_cancel' hge]
      have hgroup : bits toBits ((acc >>> (n - toBits)) % 2 ^ toBits) =
          bits toBits (acc >>> (n - toBits)) := by
        apply bits_congr
        intro i hi
        simp [Nat.testBit_mod_two_pow, hi]
      rw [allBits_append, allBits_cons, allBits_nil, append_nil, hgroup, hsplit, append_assoc]
    · rename_i hlt
      exact ⟨Nat.not_le.mp hlt, hout, rfl⟩

/-- Shifting a value in appends its bits. -/
theorem bits_shiftIn {fromBits n acc v : Nat} (hn : n + fromBits ≤ 64) (hv : v < 2 ^ fromBits) :
    bits (n + fromBits) ((acc <<< fromBits ||| v) % 2 ^ 64) = bits n acc ++ bits fromBits v := by
  rw [bits_add]
  congr 1
  · apply bits_congr
    intro i hi
    have hhigh : v.testBit (fromBits + i) = false :=
      Nat.testBit_lt_two_pow
        (lt_of_lt_of_le hv (Nat.pow_le_pow_right (by decide) (Nat.le_add_right _ _)))
    rw [Nat.testBit_shiftRight, Nat.testBit_mod_two_pow, Nat.testBit_or, hhigh,
      Nat.testBit_shiftLeft]
    have hbound : fromBits + i < 64 := by omega
    simp [hbound]
  · apply bits_congr
    intro i hi
    rw [Nat.testBit_mod_two_pow, Nat.testBit_or, Nat.testBit_shiftLeft]
    have hbound : i < 64 := by omega
    simp [hbound, Nat.not_le.mpr hi]

section Regroup

variable {fromBits toBits : Nat} (hto : 0 < toBits) (hsum : toBits + fromBits ≤ 64)
include hto hsum

theorem regroup_spec {data : List Nat} (hdata : ∀ v ∈ data, v < 2 ^ fromBits) (acc : Nat) {n : Nat}
    (hn : n < toBits) (out : List Nat) (hout : ∀ g ∈ out, g < 2 ^ toBits) :
    ∃ acc' n' out', regroup fromBits toBits data acc n out = .ok (acc', n', out') ∧
      n' < toBits ∧ (∀ g ∈ out', g < 2 ^ toBits) ∧ allBits toBits out' ++ bits n' acc' =
        allBits toBits out ++ bits n acc ++ allBits fromBits data := by
  induction data generalizing acc n out with
  | nil => exact ⟨acc, n, out, rfl, hn, hout, by simp⟩
  | cons v data ih =>
    have hv : v < 2 ^ fromBits := hdata v mem_cons_self
    have hrange : ¬ v >>> fromBits ≠ 0 := by
      rw [Nat.shiftRight_eq_div_pow, Nat.div_eq_of_lt hv]
      exact not_not.mpr rfl
    obtain ⟨hlt, hall, hbits⟩ := emitGroups_spec hto ((acc <<< fromBits ||| v) % 2 ^ 64)
      (le_refl (n + fromBits)) hout
    obtain ⟨acc', n', out', hrun, hn', hout', hkeep⟩ :=
      ih (fun x hx => hdata x (mem_cons_of_mem _ hx)) _ hlt _ hall
    refine ⟨acc', n', out', ?_, hn', hout', ?_⟩
    · rw [regroup, if_neg hrange]
      exact hrun
    · rw [hkeep, hbits, bits_shiftIn (by omega) hv, allBits_cons]
      simp only [append_assoc]

omit hto hsum in
theorem lt_of_regroup_eq_ok {data : List Nat} {acc n : Nat} {out : List Nat}
    {r : Nat × Nat × List Nat} (h : regroup fromBits toBits data acc n out = .ok r) :
    ∀ v ∈ data, v < 2 ^ fromBits := by
  induction data generalizing acc n out with
  | nil =>
    intro v hv
    cases hv
  | cons v data ih =>
    rw [regroup] at h
    split at h
    · cases h
    · rename_i hrange
      have hv : v < 2 ^ fromBits := by
        rw [not_not, Nat.shiftRight_eq_div_pow] at hrange
        exact (Nat.div_eq_zero_iff_lt (Nat.two_pow_pos _)).mp hrange
      intro x hx
      obtain rfl | htail := List.mem_cons.mp hx
      · exact hv
      · exact ih h x htail

omit hto hsum in
/-- The padding test reads the bits in hand. -/
theorem padding_eq_zero {acc n : Nat} (hn : n < toBits) :
    (acc <<< (toBits - n)) &&& (2 ^ toBits - 1) = 0 ↔ bits n acc = List.replicate n false := by
  have hpow : 2 ^ toBits = 2 ^ n * 2 ^ (toBits - n) := by
    rw [← Nat.pow_add, Nat.add_sub_cancel' hn.le]
  rw [Nat.and_two_pow_sub_one_eq_mod, Nat.shiftLeft_eq, hpow, Nat.mul_mod_mul_right,
    bits_eq_replicate_false]
  have hpos : 2 ^ (toBits - n) ≠ 0 := (Nat.two_pow_pos _).ne'
  rw [Nat.mul_eq_zero]
  exact or_iff_left hpos

omit hto hsum in
theorem finishGroups_eq_ok {acc n : Nat} (hn : n < toBits) {out' out : List Nat} :
    finishGroups fromBits toBits false (acc, n, out') = .ok out ↔
      n < fromBits ∧ bits n acc = List.replicate n false ∧ out' = out := by
  rw [← padding_eq_zero hn]
  unfold finishGroups
  simp only [Bool.false_eq_true, if_false]
  split
  · rename_i hbad
    constructor
    · intro h
      cases h
    · rintro ⟨hlt, hzero, -⟩
      omega
  · rename_i hgood
    rw [not_or, not_le, not_not] at hgood
    simp [hgood]

/-- Regrouping without padding succeeds exactly if the bits of the result,
followed by a padding of zeros shorter than a group, are the bits given. -/
theorem convertBits_eq_ok {data out : List Nat} : convertBits data fromBits toBits false = .ok out ↔
      (∀ v ∈ data, v < 2 ^ fromBits) ∧ (∀ g ∈ out, g < 2 ^ toBits) ∧
        ∃ n, n < fromBits ∧ n < toBits ∧
          allBits fromBits data = allBits toBits out ++ replicate n false := by
  constructor
  · intro h
    cases hrun : regroup fromBits toBits data 0 0 [] with
    | error e =>
      rw [convertBits, hrun] at h
      cases h
    | ok r =>
      have hdata := lt_of_regroup_eq_ok hrun
      obtain ⟨acc, n, out', hrun', hn, hout, hbits⟩ :=
        regroup_spec hto hsum hdata 0 hto [] (by simp)
      rw [convertBits, hrun'] at h
      obtain ⟨hlt, hzero, rfl⟩ := (finishGroups_eq_ok hn).mp h
      refine ⟨hdata, hout, n, hlt, hn, ?_⟩
      rw [hzero] at hbits
      exact hbits.symm
  · rintro ⟨hdata, hout, n, hlt, hn, heq⟩
    obtain ⟨acc, n', out', hrun, hn', hout', hbits⟩ :=
      regroup_spec hto hsum hdata 0 hto [] (by simp)
    have hsame : allBits toBits out' ++ bits n' acc =
        allBits toBits out ++ replicate n false := hbits.trans heq
    -- The numbers of groups agree, as both remainders are below a group.
    have hlen := congrArg length hsame
    simp only [length_append, length_allBits, length_bits, length_replicate] at hlen
    have hcount : out'.length = out.length := by
      have hdiv := congrArg (· / toBits) hlen
      simpa [Nat.mul_add_div hto, Nat.div_eq_of_lt hn, Nat.div_eq_of_lt hn'] using hdiv
    obtain rfl : n' = n := by
      rw [hcount] at hlen
      omega
    obtain ⟨hgroups, hrest⟩ := append_inj hsame (by simp [hcount])
    obtain rfl := allBits_inj hto hout' hout hgroups
    rw [convertBits, hrun]
    exact (finishGroups_eq_ok hn).mpr ⟨hlt, hrest, rfl⟩

end Regroup

/-! ## The address string -/

/-- The character of a value. -/
def charOf (alphabet : List Char) (v : Nat) : Char := alphabet.getD v ' '

theorem charOf_mem {alphabet : List Char} {v : Nat} (h : v < alphabet.length) :
    charOf alphabet v ∈ alphabet := by
  unfold charOf
  rw [getD_eq_getElem _ _ h]
  exact getElem_mem h

theorem idxOf?_eq_some {alphabet : List Char} (hnodup : alphabet.Nodup) {c : Char} {v : Nat} :
    alphabet.idxOf? c = some v ↔ v < alphabet.length ∧ charOf alphabet v = c := by
  unfold charOf idxOf?
  rw [findIdx?_eq_some_iff_getElem]
  constructor
  · rintro ⟨hlt, heq, -⟩
    rw [getD_eq_getElem _ _ hlt]
    exact ⟨hlt, beq_iff_eq.mp heq⟩
  · rintro ⟨hlt, heq⟩
    rw [getD_eq_getElem _ _ hlt] at heq
    refine ⟨hlt, beq_iff_eq.mpr heq, ?_⟩
    intro j hj hfound
    have hsame : alphabet[j] = alphabet[v] := (beq_iff_eq.mp hfound).trans heq.symm
    exact hj.ne ((hnodup.getElem_inj_iff).mp hsame)

/-- The loop over the runes inverts the alphabet. -/
theorem charValues_eq_ok {alphabet : List Char} (hnodup : alphabet.Nodup)
    {err : Char → AddressError} {cs : List Char} {vs : List Nat} :
    charValues alphabet err cs = .ok vs ↔
      (∀ v ∈ vs, v < alphabet.length) ∧ cs = vs.map (charOf alphabet) := by
  induction cs generalizing vs with
  | nil =>
    cases vs with
    | nil => simp [charValues]
    | cons v vs => simp [charValues]
  | cons c cs ih =>
    rw [charValues]
    cases hidx : alphabet.idxOf? c with
    | none =>
      constructor
      · intro h
        cases h
      · rintro ⟨hlt, heq⟩
        cases vs with
        | nil => cases heq
        | cons v vs =>
          rw [map_cons, cons.injEq] at heq
          have hsome := (idxOf?_eq_some hnodup).mpr ⟨hlt v mem_cons_self, heq.1.symm⟩
          rw [hidx] at hsome
          cases hsome
    | some i =>
      obtain ⟨hi, hc⟩ := (idxOf?_eq_some hnodup).mp hidx
      constructor
      · intro h
        cases hrest : charValues alphabet err cs with
        | error e =>
          rw [hrest] at h
          cases h
        | ok us =>
          rw [hrest] at h
          obtain rfl : i :: us = vs := Except.ok.inj h
          obtain ⟨hlt, rfl⟩ := ih.mp hrest
          refine ⟨?_, by rw [map_cons, hc]⟩
          intro v hv
          obtain rfl | htail := mem_cons.mp hv
          · exact hi
          · exact hlt v htail
      · rintro ⟨hlt, heq⟩
        cases vs with
        | nil => cases heq
        | cons v vs =>
          rw [map_cons, cons.injEq] at heq
          have hv := (idxOf?_eq_some hnodup).mpr ⟨hlt v mem_cons_self, heq.1.symm⟩
          rw [hidx, Option.some.injEq] at hv
          have hrest := ih.mpr ⟨fun x hx => hlt x (mem_cons_of_mem _ hx), heq.2⟩
          show (charValues alphabet err cs >>= fun us => Except.ok (i :: us)) = _
          rw [hrest, hv]
          rfl

/-- The data values that an address string can carry: five bits each, at
least version, one group and checksum, at most 90 characters in all. -/
structure DataPart (data : List Nat) : Prop where
  lt : ∀ v ∈ data, v < 32
  short : 8 ≤ data.length
  long : data.length ≤ 87

/-- The lower-case address with the given data values. -/
def addressText (data : List Nat) : List Char :=
  ['b', 'c', '1'] ++ data.map (charOf bech32Charset)

theorem bech32Charset_nodup : bech32Charset.Nodup := by decide

theorem bech32Charset_lower : LowerText bech32Charset :=
  forall_iff_forall_mem.mp (by decide)

theorem one_notMem_bech32Charset : '1' ∉ bech32Charset := by decide

variable {data : List Nat}

theorem charOf_mem_bech32Charset (h : ∀ v ∈ data, v < 32) :
    ∀ c ∈ data.map (charOf bech32Charset), c ∈ bech32Charset := by
  intro c hc
  obtain ⟨v, hv, rfl⟩ := mem_map.mp hc
  exact charOf_mem (h v hv)

theorem addressText_lower (h : ∀ v ∈ data, v < 32) : LowerText (addressText data) := by
  intro c hc
  obtain hhrp | hdata := mem_append.mp hc
  · have hfixed : LowerText ['b', 'c', '1'] := forall_iff_forall_mem.mp (by decide)
    exact hfixed c hhrp
  · exact bech32Charset_lower c (charOf_mem_bech32Charset h c hdata)

theorem asciiByte_inj {c d : Char} (hc : c.toNat < 128) (hd : d.toNat < 128)
    (h : asciiByte c = asciiByte d) : c = d := by
  apply Char.toNat_inj.mp
  rw [← toNat_asciiByte hc, h, toNat_asciiByte hd]

theorem decodeLower_eq_ok {s : GoString} :
    decodeLower s = .ok data ↔ DataPart data ∧ s = text (addressText data) := by
  have hascii : ∀ c ∈ bech32Charset, c.toNat < 128 := fun c hc => (bech32Charset_lower c hc).1
  constructor
  · intro h
    unfold decodeLower at h
    split at h
    · cases h
    rename_i hlong
    split at h
    · cases h
    rename_i pos hpos
    obtain ⟨pre, post, rfl, rfl, -⟩ := lastIndexByte_eq_some.mp hpos
    have hdrop : (pre ++ asciiByte '1' :: post).drop (pre.length + 1) = post := by simp
    rw [take_left, hdrop] at h
    split at h
    · cases h
    split at h
    · cases h
    rename_i hhrp
    rw [not_not] at hhrp
    dsimp only at h
    split at h
    · cases h
    rename_i hshort
    obtain ⟨hlt, hrunes⟩ := (charValues_eq_ok bech32Charset_nodup).mp h
    have hpost : post = text (data.map (charOf bech32Charset)) := by
      have hpostAscii : ∀ c ∈ runes post, c.toNat < 128 := by
        rw [hrunes]
        exact fun c hc => hascii c (charOf_mem_bech32Charset hlt c hc)
      rw [eq_map_of_runes_ascii hpostAscii, hrunes]
      rfl
    have hlen : post.length = data.length := by simp [hpost, text]
    subst hhrp
    refine ⟨⟨hlt, by omega, ?_⟩, ?_⟩
    · simp only [length_append, length_cons, text, length_map, length_nil] at hlong
      omega
    · rw [hpost]
      simp [addressText, text]
  · rintro ⟨⟨hlt, hshort, hlong⟩, rfl⟩
    have hmem := charOf_mem_bech32Charset hlt
    have hpost : asciiByte '1' ∉ text (data.map (charOf bech32Charset)) := by
      intro h
      obtain ⟨c, hc, heq⟩ := mem_map.mp h
      have hone := asciiByte_inj (hascii c (hmem c hc)) (by decide) heq
      exact one_notMem_bech32Charset (hone ▸ hmem c hc)
    have hsplit : text (addressText data) =
        text ['b', 'c'] ++ asciiByte '1' :: text (data.map (charOf bech32Charset)) := by
      simp [addressText, text]
    have hpos : lastIndexByte (asciiByte '1') (text (addressText data)) = some 2 :=
      lastIndexByte_eq_some.mpr ⟨_, _, hsplit, rfl, hpost⟩
    have htake : (text (addressText data)).take 2 = text ['b', 'c'] := by
      rw [hsplit]
      rfl
    have hdrop : (text (addressText data)).drop 3 = text (data.map (charOf bech32Charset)) := by
      rw [hsplit]
      rfl
    have hlen : (text (addressText data)).length = data.length + 3 := by
      simp [addressText, text]
    unfold decodeLower
    rw [if_neg (by omega), hpos]
    simp only [htake, hdrop]
    rw [if_neg (by decide), if_neg (by simp), if_neg (by simp [text]; omega),
      runes_text fun c hc => hascii c (hmem c hc)]
    exact (charValues_eq_ok bech32Charset_nodup).mpr ⟨hlt, rfl⟩

/-- A string whose lower case is an address has no undecodable bytes. -/
theorem runeError_notMem_of_lower (m : CaseMapping) {s : GoString} {cs : List Char}
    (hcs : LowerText cs) (h : m.toLower s = text cs) : runeError ∉ runes s := by
  intro hmem
  have hlow := (toLower_eq_text m fun c hc => (hcs c hc).1).mp h
  obtain hascii | hkelvin := ascii_or_kelvinSign m hcs hlow _ hmem
  · exact runeError_not_ascii hascii
  · exact absurd hkelvin (by decide)

/-- The prefix test is implied by the rest. -/
theorem prefix_of_kelvinToK (m : CaseMapping) {s : GoString} (hlt : ∀ v ∈ data, v < 32)
    (h : kelvinToK s = text ((addressText data).map Char.toUpper)) :
    text ['B', 'C', '1'] <+: s := by
  have hcs := addressText_lower hlt
  have hupper : ∀ c ∈ (addressText data).map Char.toUpper, c.toNat < 128 := by
    intro c hc
    obtain ⟨d, hd, rfl⟩ := mem_map.mp hc
    exact toNat_toUpper_lt (hcs d hd).1
  have hrunes := (encodeRunes_eq_text hupper).mp h
  have hlow := ((single_case_iff m hcs).mpr (.inr h)).1
  have hs := encodeRunes_runes (runeError_notMem_of_lower m hcs hlow)
  -- The KELVIN SIGN stands for `K` only, so the first three runes are as written.
  have hhead : ∀ r : Char, ∀ c ∈ ['B', 'C', '1'],
      (if r = kelvinSign then 'K' else r) = c → r = c := by
    intro r c hc heq
    split at heq
    · subst heq
      exact absurd hc (by decide)
    · exact heq
  obtain ⟨r₁, rs₁, hr₁, h₁, hrs₁⟩ := map_eq_cons_iff.mp hrunes
  obtain ⟨r₂, rs₂, rfl, h₂, hrs₂⟩ := map_eq_cons_iff.mp hrs₁
  obtain ⟨r₃, rs₃, rfl, h₃, -⟩ := map_eq_cons_iff.mp hrs₂
  obtain rfl := hhead r₁ 'B' (by decide) h₁
  obtain rfl := hhead r₂ 'C' (by decide) h₂
  obtain rfl := hhead r₃ '1' (by decide) h₃
  refine ⟨encodeRunes rs₃, ?_⟩
  rw [← hs, hr₁]
  rfl

/-- A string decodes to the data values exactly if it is their address, or
its upper case up to the KELVIN SIGN. -/
theorem decodeBech32String_eq_ok (m : CaseMapping) {addr : GoString} :
    decodeBech32String m addr = .ok data ↔ DataPart data ∧ (addr = text (addressText data) ∨
        kelvinToK addr = text ((addressText data).map Char.toUpper)) := by
  constructor
  · intro h
    unfold decodeBech32String at h
    split at h
    · cases h
    split at h
    · cases h
    rename_i hcase
    obtain ⟨hdata, hlow⟩ := decodeLower_eq_ok.mp h
    rw [not_and_or, not_not, not_not] at hcase
    exact ⟨hdata, (single_case_iff m (addressText_lower hdata.lt)).mp ⟨hlow, hcase⟩⟩
  · rintro ⟨hdata, hform⟩
    have hcs := addressText_lower hdata.lt
    have hprefix : text ['b', 'c', '1'] <+: addr ∨ text ['B', 'C', '1'] <+: addr := by
      obtain rfl | hup := hform
      · left
        exact ⟨text (data.map (charOf bech32Charset)), by simp [addressText, text]⟩
      · exact .inr (prefix_of_kelvinToK m hdata.lt hup)
    obtain ⟨hlow, hcase⟩ := (single_case_iff m hcs).mpr hform
    unfold decodeBech32String
    rw [if_neg (by tauto), if_neg (by tauto)]
    exact decodeLower_eq_ok.mpr ⟨hdata, hlow⟩

end Otedama.Btccrypto
