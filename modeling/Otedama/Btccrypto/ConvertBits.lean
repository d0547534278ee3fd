import Otedama.Btccrypto.Bech32

/-! # Regrouping with a signed accumulator

`convertBits` once more, with the types of the source: the values and the
accumulator are 64-bit two's-complement integers, the accumulator is
shifted left without ever being masked, and the shift to the right is the
arithmetic one. On a long list the accumulator overflows again and
again, and its sign changes.

Nothing depends on that. A group is cut from the lowest bits, which the
overflow does not reach and which the two shifts to the right agree on.
So the function computes what the model over natural numbers computes
(`convertBits_eq_ok_iff`), and that one reads and writes strings of bits. -/

namespace Otedama.Btccrypto.TwosComplement

open BitString List

/-! ## The function -/

inductive ConvertError where
  | outOfRange (v : Int)
  | invalidPadding
  deriving DecidableEq, Repr

/-- `(1 << to) - 1` -/
def maxv (toBits : Nat) : BitVec 64 := 1#64 <<< toBits - 1#64

/-- The inner loop, with the number of bits as fuel. -/
def emitGroups (acc : BitVec 64) (toBits : Nat) :
    Nat → Nat → List (BitVec 64) → Nat × List (BitVec 64)
  | 0, bits, out => (bits, out)
  | fuel + 1, bits, out =>
      if bits ≥ toBits then
        emitGroups acc toBits fuel (bits - toBits)
          (out ++ [acc.sshiftRight (bits - toBits) &&& maxv toBits])
      else (bits, out)

/-- The outer loop. -/
def regroup (fromBits toBits : Nat) :
    List (BitVec 64) → BitVec 64 → Nat → List (BitVec 64) →
      Except ConvertError (BitVec 64 × Nat × List (BitVec 64))
  | [], acc, bits, out => .ok (acc, bits, out)
  | v :: data, acc, bits, out =>
      if v.toInt < 0 ∨ v.sshiftRight fromBits ≠ 0#64 then .error (.outOfRange v.toInt)
      else
        let acc := acc <<< fromBits ||| v
        let groups := emitGroups acc toBits (bits + fromBits) (bits + fromBits) out
        regroup fromBits toBits data acc groups.1 groups.2

/-- What is done with the bits that are left over. -/
def finishGroups (fromBits toBits : Nat) (pad : Bool) :
    BitVec 64 × Nat × List (BitVec 64) → Except ConvertError (List (BitVec 64))
  | (acc, bits, out) =>
      let last := acc <<< (toBits - bits) &&& maxv toBits
      if pad then
        if bits > 0 then .ok (out ++ [last]) else .ok out
      else if bits ≥ fromBits ∨ last ≠ 0#64 then .error .invalidPadding
      else .ok out

def convertBits (data : List (BitVec 64)) (fromBits toBits : Nat) (pad : Bool) :
    Except ConvertError (List (BitVec 64)) := do
  let state ← regroup fromBits toBits data 0#64 0 []
  finishGroups fromBits toBits pad state

/-! ## Only the low bits matter -/

theorem toNat_maxv {toBits : Nat} (h : toBits < 64) : (maxv toBits).toNat = 2 ^ toBits - 1 := by
  have hpow : 2 ^ toBits < 2 ^ 64 := Nat.pow_lt_pow_right (by decide) h
  have hpos : 0 < 2 ^ toBits := Nat.two_pow_pos _
  have hone : (1#64 <<< toBits).toNat = 2 ^ toBits := by
    rw [BitVec.toNat_shiftLeft, BitVec.toNat_ofNat, Nat.shiftLeft_eq, Nat.one_mod, one_mul,
      Nat.mod_eq_of_lt hpow]
  rw [maxv, BitVec.toNat_sub, hone, BitVec.toNat_ofNat]
  omega

/-- A group does not see the sign. -/
theorem toNat_group (acc : BitVec 64) {n toBits : Nat} (h : n + toBits < 64) :
    (acc.sshiftRight n &&& maxv toBits).toNat = (acc.toNat >>> n) &&& (2 ^ toBits - 1) := by
  rw [BitVec.toNat_and, toNat_maxv (by omega)]
  apply Nat.eq_of_testBit_eq
  intro i
  rw [Nat.testBit_and, Nat.testBit_and, Nat.testBit_two_pow_sub_one]
  by_cases hi : i < toBits
  · have hbit : (acc.sshiftRight n).toNat.testBit i = acc.toNat.testBit (n + i) := by
      rw [← BitVec.getLsbD, ← BitVec.getLsbD, BitVec.getLsbD_sshiftRight, if_pos (by omega)]
      simp
      omega
    rw [hbit, Nat.testBit_shiftRight]
  · simp [hi]

theorem toNat_shiftIn (acc v : BitVec 64) (n : Nat) :
    (acc <<< n ||| v).toNat = (acc.toNat <<< n ||| v.toNat) % 2 ^ 64 := by
  rw [BitVec.toNat_or, BitVec.toNat_shiftLeft, Nat.or_mod_two_pow, Nat.mod_eq_of_lt v.isLt]

theorem toNat_last (acc : BitVec 64) {n toBits : Nat} (h : toBits < 64) :
    (acc <<< n &&& maxv toBits).toNat = (acc.toNat <<< n) &&& (2 ^ toBits - 1) := by
  rw [BitVec.toNat_and, toNat_maxv h, BitVec.toNat_shiftLeft, Nat.and_two_pow_sub_one_eq_mod,
    Nat.and_two_pow_sub_one_eq_mod]
  exact Nat.mod_mod_of_dvd _ (Nat.pow_dvd_pow 2 (by omega))

/-- The range test: a negative value has its highest bit set. -/
theorem inRange_iff (v : BitVec 64) {n : Nat} (h : n < 64) :
    (v.toInt < 0 ∨ v.sshiftRight n ≠ 0#64) ↔ v.toNat >>> n ≠ 0 := by
  cases hsign : v.msb with
  | false =>
    have hpos : ¬ v.toInt < 0 := Int.not_lt.mpr (BitVec.toInt_nonneg_of_msb_false hsign)
    rw [or_iff_right hpos, BitVec.sshiftRight_eq_of_msb_false hsign, ne_eq, ← BitVec.toNat_inj,
      BitVec.toNat_ushiftRight]
    rfl
  | true =>
    have hlarge : 2 ^ 63 ≤ v.toNat := by
      have := BitVec.msb_eq_true_iff_two_mul_ge.mp hsign
      omega
    have hpow : 2 ^ n ≤ 2 ^ 63 := Nat.pow_le_pow_right (by decide) (by omega)
    refine iff_of_true (.inl (BitVec.toInt_neg_of_msb_true hsign)) ?_
    rw [Nat.shiftRight_eq_div_pow]
    exact (Nat.div_pos (hpow.trans hlarge) (Nat.two_pow_pos n)).ne'

/-! ## The same as over natural numbers -/

theorem ok_of_toOption {ε α : Type} {x : Except ε α} {a : α} (h : x.toOption = some a) :
    x = .ok a := by
  cases x with
  | error e => cases h
  | ok b => exact congrArg Except.ok (Option.some.inj h)

theorem emitGroups_lt {toBits : Nat} (hto : 0 < toBits) (acc : Nat) {fuel n : Nat}
    (hfuel : n ≤ fuel) (out : List Nat) :
    (Btccrypto.emitGroups acc toBits fuel n out).1 < toBits := by
  induction fuel generalizing n out with
  | zero =>
    obtain rfl : n = 0 := by omega
    exact hto
  | succ fuel ih =>
    unfold Btccrypto.emitGroups
    split
    · exact ih (by omega) _
    · next hlt => exact Nat.not_le.mp hlt

section

variable {fromBits toBits : Nat}

/-- The natural numbers of a list of words. -/
def nats (ws : List (BitVec 64)) : List Nat := ws.map BitVec.toNat

theorem nats_injective {ws ws' : List (BitVec 64)} (h : nats ws = nats ws') : ws = ws' :=
  map_injective_iff.mpr (fun _ _ => BitVec.eq_of_toNat_eq) h

theorem nats_emitGroups (acc : BitVec 64) (toBits fuel : Nat) {n : Nat} (hn : n < 64)
    (out : List (BitVec 64)) : (emitGroups acc toBits fuel n out).1 =
        (Btccrypto.emitGroups acc.toNat toBits fuel n (nats out)).1 ∧
      nats (emitGroups acc toBits fuel n out).2 =
        (Btccrypto.emitGroups acc.toNat toBits fuel n (nats out)).2 := by
  induction fuel generalizing n out with
  | zero => exact ⟨rfl, rfl⟩
  | succ fuel ih =>
    unfold emitGroups Btccrypto.emitGroups
    split
    · next hge =>
      have hgroup : nats (out ++ [acc.sshiftRight (n - toBits) &&& maxv toBits]) =
          nats out ++ [(acc.toNat >>> (n - toBits)) &&& (2 ^ toBits - 1)] := by
        rw [nats, map_append, map_singleton, toNat_group acc (by omega)]
        rfl
      rw [← hgroup]
      exact ih (by omega) _
    · exact ⟨rfl, rfl⟩

/-- The state of the outer loop, over natural numbers. -/
def natState (r : BitVec 64 × Nat × List (BitVec 64)) : Nat × Nat × List Nat :=
  (r.1.toNat, r.2.1, nats r.2.2)

/-- The outer loop keeps fewer than `toBits` bits in hand, so that at most 63
are in use. -/
theorem nats_regroup (hto : 0 < toBits) (hsum : toBits + fromBits ≤ 64)
    (data : List (BitVec 64)) (acc : BitVec 64) {n : Nat} (hn : n < toBits)
    (out : List (BitVec 64)) : (regroup fromBits toBits data acc n out).toOption.map natState =
      (Btccrypto.regroup fromBits toBits (nats data) acc.toNat n (nats out)).toOption := by
  induction data generalizing acc n out with
  | nil => rfl
  | cons v data ih =>
    have hrange := inRange_iff v (n := fromBits) (by omega)
    show (regroup fromBits toBits (v :: data) acc n out).toOption.map natState =
      (Btccrypto.regroup fromBits toBits (v.toNat :: nats data) acc.toNat n (nats out)).toOption
    unfold regroup Btccrypto.regroup
    by_cases hbad : v.toNat >>> fromBits ≠ 0
    · rw [if_pos hbad, if_pos (hrange.mpr hbad)]
      rfl
    · rw [if_neg hbad, if_neg (mt hrange.mp hbad)]
      dsimp only
      have hsmall : n + fromBits < 64 := by omega
      obtain ⟨hbits, hout⟩ := nats_emitGroups (acc <<< fromBits ||| v) toBits (n + fromBits) hsmall
        out
      rw [toNat_shiftIn] at hbits hout
      -- The inner loop leaves less than a group.
      have hlt := emitGroups_lt hto ((acc.toNat <<< fromBits ||| v.toNat) % 2 ^ 64)
        (le_refl (n + fromBits)) (nats out)
      rw [← hbits] at hlt
      rw [ih _ hlt, toNat_shiftIn, hbits, hout]

theorem nats_finishGroups (hto : toBits < 64) (pad : Bool) (r : BitVec 64 × Nat × List (BitVec 64)) :
    (finishGroups fromBits toBits pad r).toOption.map nats =
      (Btccrypto.finishGroups fromBits toBits pad (natState r)).toOption := by
  obtain ⟨acc, n, out⟩ := r
  have hlast := toNat_last acc (n := toBits - n) hto
  have hzero : acc <<< (toBits - n) &&& maxv toBits ≠ 0#64 ↔
      (acc.toNat <<< (toBits - n)) &&& (2 ^ toBits - 1) ≠ 0 := by
    rw [← hlast, ne_eq, ← BitVec.toNat_inj]
    rfl
  unfold finishGroups Btccrypto.finishGroups natState
  dsimp only
  cases pad with
  | true =>
    rw [if_pos rfl, if_pos rfl]
    split
    · show some (nats (out ++ [_])) = some (nats out ++ [_])
      rw [nats, map_append, map_singleton, hlast]
      rfl
    · rfl
  | false =>
    rw [if_neg Bool.false_ne_true, if_neg Bool.false_ne_true]
    by_cases hbad : n ≥ fromBits ∨ (acc.toNat <<< (toBits - n)) &&& (2 ^ toBits - 1) ≠ 0
    · rw [if_pos hbad, if_pos (hbad.imp_right hzero.mpr)]
      rfl
    · rw [if_neg hbad, if_neg fun h => hbad (h.imp_right hzero.mp)]
      rfl

/-- The regrouping of the source is the one over natural numbers. -/
theorem convertBits_eq_ok_iff (hto : 0 < toBits) (hsum : toBits + fromBits ≤ 64)
    (hfrom : 0 < fromBits) (data : List (BitVec 64)) (pad : Bool) (out : List (BitVec 64)) :
    convertBits data fromBits toBits pad = .ok out ↔
      Btccrypto.convertBits (nats data) fromBits toBits pad = .ok (nats out) := by
  have hloop := nats_regroup hto hsum data 0#64 hto []
  have hsame : (convertBits data fromBits toBits pad).toOption.map nats =
      (Btccrypto.convertBits (nats data) fromBits toBits pad).toOption := by
    unfold convertBits Btccrypto.convertBits
    cases hrun : regroup fromBits toBits data 0#64 0 [] with
    | error e =>
      rw [hrun] at hloop
      cases hrun' : Btccrypto.regroup fromBits toBits (nats data) 0 0 [] with
      | error e' => rfl
      | ok r' =>
        have hbad : none = some r' := hloop.trans (congrArg Except.toOption hrun')
        cases hbad
    | ok r =>
      rw [hrun] at hloop
      cases hrun' : Btccrypto.regroup fromBits toBits (nats data) 0 0 [] with
      | error e' =>
        have hbad : some (natState r) = none := hloop.trans (congrArg Except.toOption hrun')
        cases hbad
      | ok r' =>
        have heq : some (natState r) = some r' := hloop.trans (congrArg Except.toOption hrun')
        cases heq
        exact nats_finishGroups (by omega) pad r
  constructor
  · intro h
    rw [h] at hsame
    exact ok_of_toOption hsame.symm
  · intro h
    rw [h] at hsame
    obtain ⟨out', hout', heq⟩ := Option.map_eq_some_iff.mp hsame
    rw [ok_of_toOption hout', nats_injective heq]

end

/-! ## Groups of bits -/

/-- Regrouping without padding, said by the string of bits: the left-over
bits are fewer than a group read, and zero. -/
theorem unpadded_eq_ok {fromBits toBits : Nat} (hto : 0 < toBits) (hsum : toBits + fromBits ≤ 64)
    (hle : fromBits ≤ toBits) {data out : List Nat} :
    Btccrypto.convertBits data fromBits toBits false = .ok out ↔ (∀ v ∈ data, v < 2 ^ fromBits) ∧
      ((allBits fromBits data).drop
        ((allBits fromBits data).length / toBits * toBits)).length < fromBits ∧
      (∀ b ∈ (allBits fromBits data).drop
        ((allBits fromBits data).length / toBits * toBits), b = false) ∧
      out = groups toBits ((allBits fromBits data).length / toBits) (allBits fromBits data) := by
  rw [convertBits_eq_ok hto hsum]
  generalize allBits fromBits data = bs
  refine and_congr_right fun _ => ?_
  constructor
  · rintro ⟨hout, n, hn, hn', rfl⟩
    have hwhole : (allBits toBits out ++ replicate n false).length / toBits = out.length := by
      rw [length_append, length_allBits, length_replicate, Nat.mul_add_div hto,
        Nat.div_eq_of_lt hn', add_zero]
    have hdrop : (allBits toBits out ++ replicate n false).drop (out.length * toBits) =
        replicate n false := by
      refine drop_left' ?_
      rw [length_allBits, mul_comm]
    rw [hwhole, hdrop, groups_allBits_append hto hout, length_replicate]
    exact ⟨hn, fun b hb => eq_of_mem_replicate hb, rfl⟩
  · rintro ⟨hshort, hzero, rfl⟩
    refine ⟨lt_of_mem_groups, _, hshort, lt_of_lt_of_le hshort hle, ?_⟩
    rw [allBits_groups (Nat.div_mul_le_self _ _), ← eq_replicate_of_mem hzero, take_append_drop]

/-- The bits of a last group that is filled up with zeros. -/
theorem bits_last {acc n toBits : Nat} (hn : n ≤ toBits) :
    bits toBits ((acc <<< (toBits - n)) &&& (2 ^ toBits - 1)) =
      bits n acc ++ replicate (toBits - n) false := by
  have hsplit := bits_add n (toBits - n) ((acc <<< (toBits - n)) &&& (2 ^ toBits - 1))
  rw [Nat.add_sub_cancel' hn] at hsplit
  rw [hsplit, ← bits_zero (toBits - n)]
  congr 1
  · apply bits_congr
    intro i hi
    rw [Nat.testBit_shiftRight, Nat.testBit_and, Nat.testBit_shiftLeft, Nat.testBit_two_pow_sub_one]
    have hbound : toBits - n + i < toBits := by omega
    simp [hbound]
  · apply bits_congr
    intro i hi
    rw [Nat.testBit_and, Nat.testBit_shiftLeft]
    simp [Nat.not_le.mpr hi]

/-- Regrouping with padding: the bits, filled up with zeros to whole groups. -/
theorem padded_eq_ok {fromBits toBits : Nat} (hto : 0 < toBits) (hsum : toBits + fromBits ≤ 64)
    {data : List Nat} (hdata : ∀ v ∈ data, v < 2 ^ fromBits) :
    ∃ out pad, Btccrypto.convertBits data fromBits toBits true = .ok out ∧ pad < toBits ∧
      (∀ g ∈ out, g < 2 ^ toBits) ∧
      allBits toBits out = allBits fromBits data ++ replicate pad false := by
  obtain ⟨acc, n, out, hrun, hn, hout, hbits⟩ := regroup_spec hto hsum hdata 0 hto [] (by simp)
  have hbits' : allBits toBits out ++ bits n acc = allBits fromBits data := hbits
  rw [Btccrypto.convertBits, hrun]
  show ∃ out' pad, Btccrypto.finishGroups fromBits toBits true (acc, n, out) = .ok out' ∧ _
  unfold Btccrypto.finishGroups
  dsimp only
  rw [if_pos rfl]
  rcases Nat.eq_zero_or_pos n with rfl | hpos
  · refine ⟨out, 0, rfl, hto, hout, ?_⟩
    rw [← hbits', replicate_zero, append_nil]
    exact (append_nil _).symm
  · rw [if_pos hpos]
    refine ⟨_, toBits - n, rfl, by omega, ?_, ?_⟩
    · intro g hg
      rcases mem_append.mp hg with hold | hlast
      · exact hout g hold
      · rw [mem_singleton.mp hlast, Nat.and_two_pow_sub_one_eq_mod]
        exact Nat.mod_lt _ (Nat.two_pow_pos _)
    · rw [allBits_append, allBits_cons, allBits_nil, append_nil, bits_last hn.le, ← hbits',
        append_assoc]

/-! ## Five and eight bits -/

/-- The `int`s of a list of bytes. -/
def ofBytes (bytes : List UInt8) : List (BitVec 64) := bytes.map fun b => BitVec.ofNat 64 b.toNat

/-- The `int`s of a list of numbers. -/
def ofNats (ns : List Nat) : List (BitVec 64) := ns.map (BitVec.ofNat 64)

theorem nats_ofNats {ns : List Nat} (h : ∀ n ∈ ns, n < 2 ^ 64) : nats (ofNats ns) = ns := by
  unfold nats ofNats
  rw [map_map]
  refine (map_congr_left fun n hn => ?_).trans (map_id ns)
  exact (BitVec.toNat_ofNat n 64).trans (Nat.mod_eq_of_lt (h n hn))

theorem nats_eq_iff {out : List (BitVec 64)} {ns : List Nat} (h : ∀ n ∈ ns, n < 2 ^ 64) :
    nats out = ns ↔ out = ofNats ns := by
  constructor
  · intro heq
    exact nats_injective (heq.trans (nats_ofNats h).symm)
  · rintro rfl
    exact nats_ofNats h

theorem nats_ofBytes (bytes : List UInt8) : nats (ofBytes bytes) = bytes.map UInt8.toNat := by
  have hwords : ofBytes bytes = ofNats (bytes.map UInt8.toNat) := by
    rw [ofNats, map_map]
    rfl
  rw [hwords, nats_ofNats]
  intro n hn
  obtain ⟨b, -, rfl⟩ := mem_map.mp hn
  exact lt_of_lt_of_le b.toNat_lt (by decide)

theorem toNat_lt_iff (v : BitVec 64) : v.toNat < 2 ^ 5 ↔ 0 ≤ v.toInt ∧ v.toInt ≤ 31 := by
  have hlt := v.isLt
  rw [BitVec.toInt]
  split <;> omega

/-- **Regrouping is exact.**  Five bits to eight succeeds exactly if every
value is in range and the left-over bits are fewer than five and zero,
and gives the whole groups of eight; eight bits to five gives the groups
of five, filled up with zeros; and the first undoes the second. -/
theorem convertBits_exact (data : List (BitVec 64)) (bytes : List UInt8) :
    let bs := allBits 5 (nats data)
    let n := bs.length / 8
    let src := allBits 8 (bytes.map UInt8.toNat)
    let m := (src.length + 4) / 5
    (∀ out, convertBits data 5 8 false = .ok out ↔
      (∀ v ∈ data, 0 ≤ v.toInt ∧ v.toInt ≤ 31) ∧ (bs.drop (n * 8)).length < 5 ∧
        (∀ b ∈ bs.drop (n * 8), b = false) ∧ out = ofNats (groups 8 n bs)) ∧
    convertBits (ofBytes bytes) 8 5 true =
      .ok (ofNats (groups 5 m (src ++ List.replicate (m * 5 - src.length) false))) ∧
    (convertBits (ofBytes bytes) 8 5 true >>= fun out => convertBits out 5 8 false) =
      .ok (ofBytes bytes) := by
  intro bs n src m
  have hbytes : ∀ v ∈ bytes.map UInt8.toNat, v < 2 ^ 8 := by
    intro v hv
    obtain ⟨b, -, rfl⟩ := List.mem_map.mp hv
    exact b.toNat_lt
  obtain ⟨out, pad, hconv, hpad, hout, hbits⟩ :=
    padded_eq_ok (show 0 < 5 by decide) (show 5 + 8 ≤ 64 by decide) hbytes
  have hwords : nats (ofNats out) = out := nats_ofNats fun g hg => (hout g hg).trans (by decide)
  have hgiven : convertBits (ofBytes bytes) 8 5 true = .ok (ofNats out) := by
    refine (convertBits_eq_ok_iff (by decide) (by decide) (by decide) _ _ _).mpr ?_
    rw [nats_ofBytes, hwords]
    exact hconv
  refine ⟨fun out => ?_, ?_, ?_⟩
  · rw [convertBits_eq_ok_iff (by decide) (by decide) (by decide),
      unpadded_eq_ok (by decide) (by decide) (by decide),
      nats_eq_iff fun g hg => (lt_of_mem_groups g hg).trans (by decide)]
    simp only [nats, List.forall_mem_map, toNat_lt_iff]
    rfl
  · -- The padding fills up the last group, so it is determined.
    have hlen : 5 * out.length = src.length + pad := by
      rw [← length_allBits, hbits, List.length_append, List.length_replicate]
    have hm : out.length = m := by
      show out.length = (src.length + 4) / 5
      omega
    have hpad' : pad = m * 5 - src.length := by
      rw [← hm]
      omega
    have hgroups : groups 5 m (src ++ List.replicate (m * 5 - src.length) false) = out := by
      rw [← hpad', ← hbits, ← hm]
      simpa using groups_allBits_append (by decide : 0 < 5) hout []
    rw [hgroups, hgiven]
  · rw [hgiven]
    refine (convertBits_eq_ok_iff (by decide) (by decide) (by decide) _ _ _).mpr ?_
    rw [hwords, nats_ofBytes]
    refine (convertBits_eq_ok (by decide) (by decide)).mpr ⟨hout, hbytes, pad, hpad, ?_, hbits⟩
    exact hpad.trans (by decide)

-- From the thirteenth value on the accumulator is negative.
example : convertBits (List.replicate 24 31#64) 5 8 false = .ok (List.replicate 15 255#64) := by
  decide +kernel

end Otedama.Btccrypto.TwosComplement
