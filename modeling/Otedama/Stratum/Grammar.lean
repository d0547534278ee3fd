import Otedama.Stratum.Codec

/-! # The grammar of Stratum V2 payloads

What the thirteen decoders accept, against what the encoders produce.
Field-by-field decoders are exact because their fields are; offset-based
decoders of one size accept every long enough payload, and such a payload
spells a message; the two with an optional text and `NewMiningJob` with
its optional field are treated apart. -/

namespace Otedama.Stratum

open Bytes Reader List

/-! ## Field-by-field decoders -/

theorem field_exact {α : Type} {get : Reader DecodeError α} {G : α → List UInt8 → Prop}
    (name : String) (h : Exact get G) : Exact (field name get) G :=
  h.adaptExcept _

theorem readSetupConnection_exact : Exact readSetupConnection fun m bs => m.encode = .ok bs := by
  refine Exact.congr
    ((field_exact _ (readByte_exact.adaptExcept _)).bind fun protocol =>
      (field_exact _ getU16LE_exact).bind fun minVersion =>
      (field_exact _ getU16LE_exact).bind fun maxVersion =>
      (field_exact _ getU32LE_exact).bind fun flags =>
      (field_exact _ getStr0255_exact).bind fun endpoint =>
      (field_exact _ getStr0255_exact).bind fun vendor =>
      (field_exact _ getStr0255_exact).bind fun hardwareVersion =>
      (field_exact _ getStr0255_exact).bind fun firmware =>
      (field_exact _ getStr0255_exact).bind fun deviceID => Exact.pure _) ?_
  rintro ⟨protocol, minVersion, maxVersion, flags, endpoint, vendor, hardware, firmware, device⟩ bs
  simp [Then, SetupConnection.encode, bind_eq_ok, appendStr0255_eq_ok, appendU16LE, appendU32LE,
    and_assoc]

theorem readSetupConnectionError_exact :
    Exact readSetupConnectionError fun m bs => m.encode = .ok bs := by
  refine Exact.congr ((field_exact _ getU32LE_exact).bind fun flags =>
    (field_exact _ getStr0255_exact).bind fun error => Exact.pure _) ?_
  rintro ⟨flags, error⟩ bs
  simp [Then, SetupConnectionError.encode, appendStr0255_eq_ok, appendU32LE]

theorem readOpenMiningChannel_exact :
    Exact readOpenMiningChannel fun m bs => m.encode = .ok bs := by
  refine Exact.congr ((field_exact _ getU32LE_exact).bind fun reqID =>
    (field_exact _ getStr0255_exact).bind fun user =>
    (field_exact _ getU32LE_exact).bind fun nominalHashrate =>
    (field_exact _ getU256_exact).bind fun maxTarget => Exact.pure _) ?_
  rintro ⟨reqID, user, nominalHashrate, maxTarget⟩ bs
  simp [Then, OpenMiningChannel.encode, bind_eq_ok, appendStr0255_eq_ok, appendU32LE,
    @eq_comm _ _ bs]

/-- The layout of an `OpenMiningChannelSuccess`, whatever the length of the
extranonce. -/
def OpenMiningChannelSuccess.layout (m : OpenMiningChannelSuccess) : List UInt8 :=
  le32 m.reqID ++ le32 m.channelID ++ m.target.toList ++ lenPrefixed m.extranonce ++
    le32 m.groupChannelID

theorem OpenMiningChannelSuccess.encode_eq_ok {m : OpenMiningChannelSuccess} {bs : List UInt8} :
    m.encode = .ok bs ↔ m.extranonce.length ≤ 32 ∧ bs = m.layout := by
  simp [OpenMiningChannelSuccess.encode, bind_eq_ok, appendB032_eq_ok, appendU32LE, layout,
    @eq_comm _ _ bs]

theorem readOpenMiningChannelSuccess_exact :
    Exact readOpenMiningChannelSuccess fun m bs => m.extranonce.length ≤ 255 ∧ bs = m.layout := by
  refine Exact.congr (getU32LE_exact.bind fun reqID => getU32LE_exact.bind fun channelID =>
    (field_exact _ getU256_exact).bind fun target => getB0255_exact.bind fun extranonce =>
    (field_exact _ getU32LE_exact).bind fun groupChannelID => Exact.pure _) ?_
  rintro ⟨reqID, channelID, target, extranonce, groupChannelID⟩ bs
  simp [Then, OpenMiningChannelSuccess.layout]

variable {p : List UInt8} {e : DecodeError}

/-- The encoder stops at 32 bytes of extranonce, the decoder at 255. -/
theorem decodeOpenMiningChannelSuccess_eq_ok {m : OpenMiningChannelSuccess} :
    decodeOpenMiningChannelSuccess p = .ok m ↔ (∃ bs t, m.encode = .ok bs ∧ p = bs ++ t) ∨
        (33 ≤ m.extranonce.length ∧ m.extranonce.length ≤ 255 ∧ ∃ t, p = m.layout ++ t) := by
  refine (readOpenMiningChannelSuccess_exact.accepts p m).trans ?_
  constructor
  · rintro ⟨_, t, ⟨hlen, rfl⟩, rfl⟩
    by_cases hconf : m.extranonce.length ≤ 32
    · exact .inl ⟨_, t, OpenMiningChannelSuccess.encode_eq_ok.mpr ⟨hconf, rfl⟩, rfl⟩
    · exact .inr ⟨by omega, hlen, t, rfl⟩
  · rintro (⟨bs, t, henc, rfl⟩ | ⟨-, hlen, t, rfl⟩)
    · obtain ⟨hlen, rfl⟩ := OpenMiningChannelSuccess.encode_eq_ok.mp henc
      exact ⟨_, t, ⟨by omega, rfl⟩, rfl⟩
    · exact ⟨_, t, ⟨hlen, rfl⟩, rfl⟩

theorem readCloseChannel_exact : Exact readCloseChannel fun m bs => m.encode = .ok bs := by
  refine Exact.congr ((field_exact _ getU32LE_exact).bind fun channelID =>
    (field_exact _ getStr0255_exact).bind fun reason => Exact.pure _) ?_
  rintro ⟨channelID, reason⟩ bs
  simp [Then, CloseChannel.encode, appendStr0255_eq_ok, appendU32LE]

/-! ## Offset-based decoders -/

/-- The codes of the messages of one size, as products of their fields. -/
def setupConnectionSuccessCode : FixedCode SetupConnectionSuccess :=
  (u16LE.prod u32LE).map
    ⟨fun x => ⟨x.1, x.2⟩, fun m => (m.usedVersion, m.flags), fun _ => rfl, fun _ => rfl⟩

def setTargetCode : FixedCode SetTarget :=
  (u32LE.prod u256).map
    ⟨fun x => ⟨x.1, x.2⟩, fun m => (m.channelID, m.target), fun _ => rfl, fun _ => rfl⟩

def setNewPrevHashCode : FixedCode SetNewPrevHash :=
  (u32LE.prod (u32LE.prod (u256.prod (u32LE.prod u32LE)))).map
    ⟨fun x => ⟨x.1, x.2.1, x.2.2.1, x.2.2.2.1, x.2.2.2.2⟩,
      fun m => (m.channelID, m.jobID, m.prevHash, m.ntimeStart, m.nBits), fun _ => rfl,
      fun _ => rfl⟩

def submitSharesStandardCode : FixedCode SubmitSharesStandard :=
  (u32LE.prod (u32LE.prod (u32LE.prod (u32LE.prod (u32LE.prod u32LE))))).map
    ⟨fun x => ⟨x.1, x.2.1, x.2.2.1, x.2.2.2.1, x.2.2.2.2.1, x.2.2.2.2.2⟩,
      fun m => (m.channelID, m.sequenceNumber, m.jobID, m.nonce, m.nTime, m.nVersion),
      fun _ => rfl, fun _ => rfl⟩

def submitSharesSuccessCode : FixedCode SubmitSharesSuccess :=
  (u32LE.prod (u32LE.prod (u32LE.prod u64LE))).map
    ⟨fun x => ⟨x.1, x.2.1, x.2.2.1, x.2.2.2⟩,
      fun m => (m.channelID, m.lastSequenceNumber, m.newSubmitsAccepted, m.newSharesSummed),
      fun _ => rfl, fun _ => rfl⟩

section fixedCodes

variable {bs : List UInt8}

theorem SetupConnectionSuccess.encode_eq_ok {m : SetupConnectionSuccess} :
    m.encode = .ok bs ↔ bs = setupConnectionSuccessCode.encode m := by
  simp [encode, setupConnectionSuccessCode, FixedCode.map, FixedCode.prod, u16LE, u32LE, eq_comm]

theorem SetTarget.encode_eq_ok {m : SetTarget} :
    m.encode = .ok bs ↔ bs = setTargetCode.encode m := by
  simp [encode, setTargetCode, FixedCode.map, FixedCode.prod, u32LE, u256, eq_comm]

theorem SetNewPrevHash.encode_eq_ok {m : SetNewPrevHash} :
    m.encode = .ok bs ↔ bs = setNewPrevHashCode.encode m := by
  simp [encode, setNewPrevHashCode, FixedCode.map, FixedCode.prod, u32LE, u256, eq_comm]

theorem SubmitSharesStandard.encode_eq_ok {m : SubmitSharesStandard} :
    m.encode = .ok bs ↔ bs = submitSharesStandardCode.encode m := by
  simp [encode, submitSharesStandardCode, FixedCode.map, FixedCode.prod, u32LE, eq_comm]

theorem SubmitSharesSuccess.encode_eq_ok {m : SubmitSharesSuccess} :
    m.encode = .ok bs ↔ bs = submitSharesSuccessCode.encode m := by
  simp [encode, submitSharesSuccessCode, FixedCode.map, FixedCode.prod, u32LE, u64LE, eq_comm]

end fixedCodes

theorem decodeSetupConnectionSuccess_fixed :
    FixedDecoder setupConnectionSuccessCode decodeSetupConnectionSuccess
      fun n => .shortPayload "SetupConnectionSuccess" n 6 where
  of_short p h := if_pos h
  of_encode m t := by
    refine (if_neg (setupConnectionSuccessCode.not_length_lt m t)).trans ?_
    simp [setupConnectionSuccessCode, FixedCode.map, FixedCode.prod, u16LE, u32LE, slice_head,
      slice_skip]

theorem decodeSetTarget_fixed :
    FixedDecoder setTargetCode decodeSetTarget fun n => .shortPayload "SetTarget" n 36 where
  of_short p h := if_pos h
  of_encode m t := by
    refine (if_neg (setTargetCode.not_length_lt m t)).trans ?_
    simp [setTargetCode, FixedCode.map, FixedCode.prod, u32LE, u256, slice_head, slice_skip]

theorem decodeSetNewPrevHash_fixed :
    FixedDecoder setNewPrevHashCode decodeSetNewPrevHash
      fun n => .shortPayload "SetNewPrevHash" n 48 where
  of_short p h := if_pos h
  of_encode m t := by
    refine (if_neg (setNewPrevHashCode.not_length_lt m t)).trans ?_
    simp [setNewPrevHashCode, FixedCode.map, FixedCode.prod, u32LE, u256, slice_head, slice_skip]

theorem decodeSubmitSharesStandard_fixed :
    FixedDecoder submitSharesStandardCode decodeSubmitSharesStandard
      fun n => .shortPayload "SubmitSharesStandard" n 24 where
  of_short p h := if_pos h
  of_encode m t := by
    refine (if_neg (submitSharesStandardCode.not_length_lt m t)).trans ?_
    simp [submitSharesStandardCode, FixedCode.map, FixedCode.prod, u32LE, slice_head, slice_skip]

theorem decodeSubmitSharesSuccess_fixed :
    FixedDecoder submitSharesSuccessCode decodeSubmitSharesSuccess
      fun n => .shortPayload "SubmitSharesSuccess" n 20 where
  of_short p h := if_pos h
  of_encode m t := by
    refine (if_neg (submitSharesSuccessCode.not_length_lt m t)).trans ?_
    simp [submitSharesSuccessCode, FixedCode.map, FixedCode.prod, u32LE, u64LE, slice_head,
      slice_skip]

/-! ## Texts that may be missing -/

theorem slice_rest {a q : List UInt8} {n : Nat} (ha : a.length = n) :
    slice (a ++ q) n (a ++ q).length = .ok q := by
  rw [slice_skip (by omega) (by simp; omega)]
  simp [ha, slice_all]

/-- The text is read unless the payload ends where it would start. -/
theorem textAfter_eq_ok {get : Reader DecodeError GoString}
    (hget : Exact get fun s bs => s.length ≤ 255 ∧ bs = lenPrefixed s) {a q s : List UInt8}
    {n : Nat} (ha : a.length = n) : textAfter get (a ++ q) n = .ok s ↔
      (s.length ≤ 255 ∧ ∃ t, q = lenPrefixed s ++ t) ∨ (s = [] ∧ q = []) := by
  unfold textAfter
  by_cases hq : q = []
  · rw [if_neg (by simp [hq, ha]), Except.ok.injEq, hq]
    constructor
    · rintro rfl
      exact .inr ⟨rfl, rfl⟩
    · rintro (⟨-, t, h⟩ | ⟨rfl, -⟩)
      · cases h
      · rfl
  · have hpos : 0 < q.length := length_pos_iff.mpr hq
    rw [if_pos (by simp; omega), slice_rest ha, ok_bind, hget.accepts]
    simp [hq, and_assoc]

/-- A decoder of a fixed part and a text that may be missing. -/
structure TextDecoder {α M : Type} (c : FixedCode α) (get : Reader DecodeError GoString)
    (mk : α → GoString → M) (decode : List UInt8 → Except DecodeError M) : Prop where
  of_short : ∀ p, p.length < c.size → ∃ e, decode p = .error e ∧ e.InRange
  of_encode : ∀ a q, decode (c.encode a ++ q) =
    textAfter get (c.encode a ++ q) c.size >>= fun error => .ok (mk a error)

section textDecoder

variable {α M : Type} {c : FixedCode α} {get : Reader DecodeError GoString}
  {mk : α → GoString → M} {decode : List UInt8 → Except DecodeError M}

theorem TextDecoder.eq_ok (h : TextDecoder c get mk decode)
    (hget : Exact get fun s bs => s.length ≤ 255 ∧ bs = lenPrefixed s)
    (hmk : ∀ {a b s t}, mk a s = mk b t ↔ a = b ∧ s = t) {a : α} {s : GoString} :
    decode p = .ok (mk a s) ↔ (s.length ≤ 255 ∧ ∃ t, p = c.encode a ++ (lenPrefixed s ++ t)) ∨
        (s = [] ∧ p = c.encode a) := by
  by_cases hlen : p.length < c.size
  · obtain ⟨e, herr, -⟩ := h.of_short p hlen
    rw [herr]
    constructor
    · intro hok
      cases hok
    · rintro (⟨-, t, rfl⟩ | ⟨-, rfl⟩)
      · exact absurd hlen (c.not_length_lt _ _)
      · exact absurd hlen (c.length_encode a).not_lt
  · obtain ⟨b, q, rfl⟩ := c.spell (Nat.not_lt.mp hlen)
    have hend : c.encode b ++ q = c.encode a ↔ b = a ∧ q = [] := by
      rw [← c.append_inj, append_nil]
    rw [h.of_encode, bind_eq_ok, hend]
    simp only [textAfter_eq_ok hget (c.length_encode b), Except.ok.injEq, hmk, c.append_inj]
    constructor
    · rintro ⟨_, ⟨hs, t, rfl⟩ | ⟨rfl, rfl⟩, rfl, rfl⟩
      · exact .inl ⟨hs, t, rfl, rfl⟩
      · exact .inr ⟨rfl, rfl, rfl⟩
    · rintro (⟨hs, t, rfl, rfl⟩ | ⟨rfl, rfl, rfl⟩)
      · exact ⟨s, .inl ⟨hs, t, rfl⟩, rfl, rfl⟩
      · exact ⟨[], .inr ⟨rfl, rfl⟩, rfl, rfl⟩

/-- Behind the fixed part only the reader of the text can fail. -/
theorem TextDecoder.inRange (h : TextDecoder c get mk decode)
    (hget : Throws get DecodeError.InRange) (herr : decode p = .error e) : e.InRange := by
  by_cases hlen : p.length < c.size
  · obtain ⟨e', hshort, hrange⟩ := h.of_short p hlen
    cases hshort.symm.trans herr
    exact hrange
  · obtain ⟨a, q, rfl⟩ := c.spell (Nat.not_lt.mp hlen)
    rw [h.of_encode, bind_eq_error] at herr
    obtain htext | ⟨_, -, hok⟩ := herr
    · unfold textAfter at htext
      split at htext
      · rw [slice_rest (c.length_encode a), ok_bind] at htext
        exact hget.eval htext
      · cases htext
    · cases hok

end textDecoder

theorem decodeOpenMiningChannelError_text :
    TextDecoder u32LE (field "OpenMiningChannelError.Error" getStr0255)
      OpenMiningChannelError.mk decodeOpenMiningChannelError where
  of_short p h := ⟨_, if_pos h, trivial⟩
  of_encode reqID q := by
    refine (if_neg (u32LE.not_length_lt reqID q)).trans ?_
    simp [u32LE, slice_head]
    rfl

theorem decodeSubmitSharesError_text :
    TextDecoder (u32LE.prod u32LE) getStr0255 (fun x error => SubmitSharesError.mk x.1 x.2 error)
      decodeSubmitSharesError where
  of_short p h := ⟨_, if_pos h, trivial⟩
  of_encode x q := by
    refine (if_neg ((u32LE.prod u32LE).not_length_lt x q)).trans ?_
    simp [FixedCode.prod, u32LE, slice_head, slice_skip]
    rfl

theorem decodeOpenMiningChannelError_eq_ok {m : OpenMiningChannelError} :
    decodeOpenMiningChannelError p = .ok m ↔
      (∃ bs t, m.encode = .ok bs ∧ p = bs ++ t) ∨ (m.error = [] ∧ p = le32 m.reqID) := by
  obtain ⟨reqID, error⟩ := m
  refine (decodeOpenMiningChannelError_text.eq_ok (field_exact _ getStr0255_exact)
    (by simp)).trans ?_
  simp [OpenMiningChannelError.encode, appendStr0255_eq_ok, appendU32LE, u32LE]

theorem decodeSubmitSharesError_eq_ok {m : SubmitSharesError} : decodeSubmitSharesError p = .ok m ↔
      (∃ bs t, m.encode = .ok bs ∧ p = bs ++ t) ∨
        (m.error = [] ∧ p = le32 m.channelID ++ le32 m.sequenceNumber) := by
  obtain ⟨channelID, sequenceNumber, error⟩ := m
  refine (decodeSubmitSharesError_text.eq_ok (a := (channelID, sequenceNumber)) getStr0255_exact
    (by simp [Prod.ext_iff, and_assoc])).trans ?_
  simp [SubmitSharesError.encode, appendStr0255_eq_ok, appendU32LE, FixedCode.prod, u32LE]

/-! ## `NewMiningJob` -/

theorem ntimeStartAt_append (a q : List UInt8) (count : UInt8) (ha : a.length = 8) :
    ntimeStartAt (a ++ count :: q) 8 = if count = 0 then .ok (9, false, 0) else if count = 1 then
        if q.length < 40 then .error (.shortNtimeStart (9 + q.length))
        else (slice q 0 4).map fun ntimeStart => (13, true, uint32 ntimeStart)
      else .error (.invalidOption count) := by
  have hlen : (a ++ count :: q).length = 9 + q.length := by
    simp [ha]
    omega
  have hshort : 9 + q.length < 9 + 4 + 4 + 32 ↔ q.length < 40 := by omega
  have hcount : byteAt (a ++ count :: q) 8 = .ok count := by
    rw [byteAt_skip ha.le, ha]
    rfl
  have hslice : slice (a ++ count :: q) 9 13 = slice q 0 4 := by
    rw [slice_skip (by omega) (by omega), ha, slice_cons]
  unfold ntimeStartAt
  simp only [hcount, ok_bind, hlen, hshort, hslice]
  cases slice q 0 4 <;> rfl

/-- What the option byte decides is all the decoder needs to know of it. -/
theorem decodeNewMiningJob_append (channelID jobID : UInt32) (count : UInt8) {q : List UInt8}
    (hq : 36 ≤ q.length) :
    decodeNewMiningJob (le32 channelID ++ le32 jobID ++ count :: q) = (do
      let (off, hasNtimeStart, ntimeStart) ←
        ntimeStartAt (le32 channelID ++ le32 jobID ++ count :: q) 8
      let version ← slice (le32 channelID ++ le32 jobID ++ count :: q) off (off + 4)
      let merkleRoot ←
        slice (le32 channelID ++ le32 jobID ++ count :: q) (off + 4) (off + 4 + 32)
      pure ⟨channelID, jobID, hasNtimeStart, ntimeStart, uint32 version, copy32 merkleRoot⟩) := by
  have hfst : slice (le32 channelID ++ le32 jobID ++ count :: q) 0 4 = .ok (le32 channelID) := by
    rw [append_assoc, slice_head (length_le32 channelID)]
  have hsnd : slice (le32 channelID ++ le32 jobID ++ count :: q) 4 8 = .ok (le32 jobID) := by
    simp [slice_skip, slice_head]
  refine (if_neg ?_).trans ?_
  · simp
    omega
  · rw [hfst, ok_bind, hsnd, ok_bind, uint32_le32, uint32_le32]

theorem decodeNewMiningJob_encode {m : NewMiningJob} {bs : List UInt8} (t : List UInt8)
    (hzero : m.hasNtimeStart = false → m.ntimeStart = 0) (henc : m.encode = .ok bs) :
    decodeNewMiningJob (bs ++ t) = .ok m := by
  obtain ⟨channelID, jobID, hasNtimeStart, ntimeStart, version, merkleRoot⟩ := m
  have hhead : (le32 channelID ++ le32 jobID).length = 8 := by simp
  cases hasNtimeStart with
  | false =>
    obtain rfl : ntimeStart = 0 := hzero rfl
    obtain rfl := Except.ok.inj henc
    have happ := decodeNewMiningJob_append channelID jobID 0
      (q := le32 version ++ merkleRoot.toList ++ t) (by simp; omega)
    rw [ntimeStartAt_append _ _ _ hhead, if_pos rfl, ok_bind] at happ
    simpa [slice_skip, slice_cons, slice_head] using happ
  | true =>
    obtain rfl := Except.ok.inj henc
    have happ := decodeNewMiningJob_append channelID jobID 1
      (q := le32 ntimeStart ++ le32 version ++ merkleRoot.toList ++ t) (by simp; omega)
    rw [ntimeStartAt_append _ _ _ hhead, if_neg (by decide), if_pos rfl,
      if_neg (by simp; omega)] at happ
    simpa [slice_skip, slice_cons, slice_head, Except.map] using happ

/-- A payload with an option byte other than 0 and 1, or too short for it, is
refused; every other one spells a job. -/
theorem decodeNewMiningJob_cases (p : List UInt8) :
    (∃ e, decodeNewMiningJob p = .error e ∧ e.InRange) ∨ ∃ (m : NewMiningJob) (bs t : List UInt8),
        ((m.hasNtimeStart = false → m.ntimeStart = 0) ∧ m.encode = .ok bs) ∧ p = bs ++ t := by
  by_cases hlen : p.length < 45
  · exact .inl ⟨_, if_pos hlen, trivial⟩
  · obtain ⟨⟨channelID, jobID⟩, r, hp⟩ := (u32LE.prod u32LE).spell (show 8 ≤ p.length by omega)
    obtain rfl : p = le32 channelID ++ le32 jobID ++ r := hp
    have hhead : (le32 channelID ++ le32 jobID).length = 8 := by simp
    rw [length_append, hhead] at hlen
    cases r with
    | nil => simp at hlen
    | cons count q =>
      have hq : 36 ≤ q.length := by
        rw [length_cons] at hlen
        omega
      rw [decodeNewMiningJob_append _ _ _ hq, ntimeStartAt_append _ _ _ hhead]
      by_cases hzero : count = 0
      · obtain ⟨⟨version, merkleRoot⟩, t, rfl⟩ := (u32LE.prod u256).spell hq
        refine .inr ⟨⟨channelID, jobID, false, 0, version, merkleRoot⟩, _, t,
          ⟨fun _ => rfl, rfl⟩, ?_⟩
        simp [hzero, FixedCode.prod, u32LE, u256]
      rw [if_neg hzero]
      by_cases hone : count = 1
      · rw [if_pos hone]
        by_cases hshort : q.length < 40
        · rw [if_pos hshort]
          exact .inl ⟨_, rfl, trivial⟩
        · obtain ⟨⟨ntimeStart, version, merkleRoot⟩, t, rfl⟩ :=
            (u32LE.prod (u32LE.prod u256)).spell (Nat.not_lt.mp hshort)
          refine .inr ⟨⟨channelID, jobID, true, ntimeStart, version, merkleRoot⟩, _, t,
            ⟨by simp, rfl⟩, ?_⟩
          simp [hone, FixedCode.prod, u32LE, u256]
      · rw [if_neg hone]
        exact .inl ⟨_, rfl, trivial⟩

theorem decodeNewMiningJob_accepts : Accepts decodeNewMiningJob fun m bs =>
      (m.hasNtimeStart = false → m.ntimeStart = 0) ∧ m.encode = .ok bs := by
  refine accepts_of_roundTrip (fun _ _ t h => decodeNewMiningJob_encode t h.1 h.2) ?_
  intro p m hok
  obtain ⟨e, herr, -⟩ | hspell := decodeNewMiningJob_cases p
  · rw [herr] at hok
    cases hok
  · exact hspell

/-! ## No decoder reads beyond the payload -/

theorem readFull_throws {n : Nat} {g : StreamError → DecodeError} (hg : ∀ e, (g e).InRange) :
    Throws ((readFull n).adaptExcept g) DecodeError.InRange :=
  Throws.adaptExcept fun _ e _ _ => hg e

theorem field_throws {α : Type} {get : Reader DecodeError α} (name : String)
    (h : Throws get DecodeError.InRange) : Throws (field name get) DecodeError.InRange :=
  Throws.adaptExcept h

theorem readByte_throws : Throws (readByte.adaptExcept .stream) DecodeError.InRange :=
  Throws.adaptExcept fun _ _ _ _ => trivial

theorem getU16LE_throws : Throws getU16LE DecodeError.InRange :=
  Throws.bind (readFull_throws fun _ => trivial) fun _ => Throws.pure _ _

theorem getU32LE_throws : Throws getU32LE DecodeError.InRange :=
  Throws.bind (readFull_throws fun _ => trivial) fun _ => Throws.pure _ _

theorem getU256_throws : Throws getU256 DecodeError.InRange :=
  Throws.bind (readFull_throws fun _ => trivial) fun _ => Throws.pure _ _

theorem getLenPrefixed_throws {lenErr bytesErr : DecodeError → DecodeError}
    (hlen : ∀ e, (lenErr (.stream e)).InRange) (hbytes : ∀ e, (bytesErr (.stream e)).InRange) :
    Throws (getLenPrefixed lenErr bytesErr) DecodeError.InRange := by
  refine Throws.bind (readFull_throws hlen) fun lenBuf => ?_
  by_cases hzero : (lenBuf.headD 0).toNat = 0
  · simp only [hzero, if_true]
    exact Throws.pure _ _
  · simp only [hzero, if_false]
    exact readFull_throws hbytes

theorem getStr0255_throws : Throws getStr0255 DecodeError.InRange :=
  getLenPrefixed_throws (fun _ => trivial) fun _ => trivial

theorem getB0255_throws : Throws getB0255 DecodeError.InRange :=
  getLenPrefixed_throws (fun _ => trivial) fun _ => trivial

theorem readSetupConnection_throws : Throws readSetupConnection DecodeError.InRange :=
  (field_throws _ readByte_throws).bind fun _ =>
    (field_throws _ getU16LE_throws).bind fun _ => (field_throws _ getU16LE_throws).bind fun _ =>
    (field_throws _ getU32LE_throws).bind fun _ => (field_throws _ getStr0255_throws).bind fun _ =>
    (field_throws _ getStr0255_throws).bind fun _ => (field_throws _ getStr0255_throws).bind fun _ =>
    (field_throws _ getStr0255_throws).bind fun _ => (field_throws _ getStr0255_throws).bind fun _ =>
    Throws.pure _ _

theorem readSetupConnectionError_throws : Throws readSetupConnectionError DecodeError.InRange :=
  (field_throws _ getU32LE_throws).bind fun _ => (field_throws _ getStr0255_throws).bind fun _ =>
    Throws.pure _ _

theorem readOpenMiningChannel_throws : Throws readOpenMiningChannel DecodeError.InRange :=
  (field_throws _ getU32LE_throws).bind fun _ => (field_throws _ getStr0255_throws).bind fun _ =>
    (field_throws _ getU32LE_throws).bind fun _ => (field_throws _ getU256_throws).bind fun _ =>
    Throws.pure _ _

theorem readOpenMiningChannelSuccess_throws :
    Throws readOpenMiningChannelSuccess DecodeError.InRange :=
  getU32LE_throws.bind fun _ => getU32LE_throws.bind fun _ =>
    (field_throws _ getU256_throws).bind fun _ => getB0255_throws.bind fun _ =>
    (field_throws _ getU32LE_throws).bind fun _ => Throws.pure _ _

theorem readCloseChannel_throws : Throws readCloseChannel DecodeError.InRange :=
  (field_throws _ getU32LE_throws).bind fun _ => (field_throws _ getStr0255_throws).bind fun _ =>
    Throws.pure _ _

theorem decodeNewMiningJob_inRange (h : decodeNewMiningJob p = .error e) : e.InRange := by
  obtain ⟨e', herr, hrange⟩ | ⟨m, bs, t, ⟨hzero, henc⟩, rfl⟩ := decodeNewMiningJob_cases p
  · cases herr.symm.trans h
    exact hrange
  · rw [decodeNewMiningJob_encode t hzero henc] at h
    cases h

theorem MsgType.decode_inRange {ty : MsgType} (h : ty.decode p = .error e) : e.InRange := by
  cases ty with
  | setupConnection => exact readSetupConnection_throws.eval h
  | setupConnectionSuccess => exact decodeSetupConnectionSuccess_fixed.error_eq h ▸ trivial
  | setupConnectionError => exact readSetupConnectionError_throws.eval h
  | openMiningChannel => exact readOpenMiningChannel_throws.eval h
  | openMiningChannelSuccess => exact readOpenMiningChannelSuccess_throws.eval h
  | openMiningChannelError =>
    exact decodeOpenMiningChannelError_text.inRange (field_throws _ getStr0255_throws) h
  | newMiningJob => exact decodeNewMiningJob_inRange h
  | closeChannel => exact readCloseChannel_throws.eval h
  | submitSharesStandard => exact decodeSubmitSharesStandard_fixed.error_eq h ▸ trivial
  | submitSharesSuccess => exact decodeSubmitSharesSuccess_fixed.error_eq h ▸ trivial
  | submitSharesError => exact decodeSubmitSharesError_text.inRange getStr0255_throws h
  | setNewPrevHash => exact decodeSetNewPrevHash_fixed.error_eq h ▸ trivial
  | setTarget => exact decodeSetTarget_fixed.error_eq h ▸ trivial

/-! ## All thirteen types -/

namespace MsgType

/-- What a message reads back as: an absent `ntime_start` is zero. -/
def readBack : (ty : MsgType) → ty.Struct → ty.Struct
  | .newMiningJob, m => if m.hasNtimeStart then m else { m with ntimeStart := 0 }
  | _, m => m

/-- The payload ends where the text of an error message would start. -/
def ShortForm : (ty : MsgType) → ty.Struct → List UInt8 → Prop
  | .submitSharesError, m, p =>
      m.error = [] ∧ p = le32 m.channelID ++ le32 m.sequenceNumber
  | .openMiningChannelError, m, p => m.error = [] ∧ p = le32 m.reqID
  | _, _, _ => False

/-- The payload has an extranonce longer than the encoder allows. -/
def LongExtranonce : (ty : MsgType) → ty.Struct → List UInt8 → Prop
  | .openMiningChannelSuccess, m, p =>
      33 ≤ m.extranonce.length ∧ m.extranonce.length ≤ 255 ∧ ∃ t, p = m.layout ++ t
  | _, _, _ => False

/-- The payloads that spell a message, the lenient forms included. -/
def Spells (ty : MsgType) (m : ty.Struct) (p : List UInt8) : Prop :=
  (∃ bs t, ty.encode m = .ok bs ∧ p = bs ++ t) ∨ ty.ShortForm m p ∨ ty.LongExtranonce m p

variable {p : List UInt8} {ty : MsgType}

/-- A type without lenient forms. -/
def Strict (ty : MsgType) : Prop :=
  ∀ m p, ty.readBack m = m ∧ ¬ ty.ShortForm m p ∧ ¬ ty.LongExtranonce m p

theorem decode_eq_ok_of_accepts (ty : MsgType)
    (hacc : Accepts ty.decode fun m bs => ty.encode m = .ok bs) (hty : ty.Strict) {m : ty.Struct} :
    ty.decode p = .ok m ↔ ty.readBack m = m ∧ ty.Spells m p := by
  obtain ⟨hread, hshort, hlong⟩ := hty m p
  rw [hacc p m]
  simp [Spells, hread, hshort, hlong]

theorem decode_eq_ok_of_fixed (ty : MsgType) {c : FixedCode ty.Struct} {short : Nat → DecodeError}
    (hfixed : FixedDecoder c ty.decode short)
    (henc : ∀ {bs m}, ty.encode m = .ok bs ↔ bs = c.encode m) (hty : ty.Strict) {m : ty.Struct} :
    ty.decode p = .ok m ↔ ty.readBack m = m ∧ ty.Spells m p :=
  decode_eq_ok_of_accepts ty (hfixed.accepts.congr fun _ _ => henc.symm) hty

theorem readBack_newMiningJob {m : NewMiningJob} :
    readBack .newMiningJob m = m ↔ (m.hasNtimeStart = false → m.ntimeStart = 0) := by
  obtain ⟨channelID, jobID, hasNtimeStart, ntimeStart, version, merkleRoot⟩ := m
  cases hasNtimeStart with
  | false => simp [readBack, eq_comm]
  | true => simp [readBack]

theorem decode_eq_ok {m : ty.Struct} : ty.decode p = .ok m ↔ ty.readBack m = m ∧ ty.Spells m p := by
  cases ty with
  | setupConnection =>
    exact decode_eq_ok_of_accepts .setupConnection readSetupConnection_exact.accepts
      fun _ _ => ⟨rfl, id, id⟩
  | setupConnectionSuccess =>
    exact decode_eq_ok_of_fixed .setupConnectionSuccess decodeSetupConnectionSuccess_fixed
      SetupConnectionSuccess.encode_eq_ok fun _ _ => ⟨rfl, id, id⟩
  | setupConnectionError =>
    exact decode_eq_ok_of_accepts .setupConnectionError readSetupConnectionError_exact.accepts
      fun _ _ => ⟨rfl, id, id⟩
  | openMiningChannel =>
    exact decode_eq_ok_of_accepts .openMiningChannel readOpenMiningChannel_exact.accepts
      fun _ _ => ⟨rfl, id, id⟩
  | openMiningChannelSuccess =>
    refine decodeOpenMiningChannelSuccess_eq_ok.trans ?_
    simp [Spells, ShortForm, LongExtranonce, readBack, encode]
  | openMiningChannelError =>
    refine decodeOpenMiningChannelError_eq_ok.trans ?_
    simp [Spells, ShortForm, LongExtranonce, readBack, encode]
  | newMiningJob =>
    refine (decodeNewMiningJob_accepts p m).trans ?_
    rw [readBack_newMiningJob]
    simp [Spells, ShortForm, LongExtranonce, encode, and_assoc]
  | closeChannel =>
    exact decode_eq_ok_of_accepts .closeChannel readCloseChannel_exact.accepts
      fun _ _ => ⟨rfl, id, id⟩
  | submitSharesStandard =>
    exact decode_eq_ok_of_fixed .submitSharesStandard decodeSubmitSharesStandard_fixed
      SubmitSharesStandard.encode_eq_ok fun _ _ => ⟨rfl, id, id⟩
  | submitSharesSuccess =>
    exact decode_eq_ok_of_fixed .submitSharesSuccess decodeSubmitSharesSuccess_fixed
      SubmitSharesSuccess.encode_eq_ok fun _ _ => ⟨rfl, id, id⟩
  | submitSharesError =>
    refine decodeSubmitSharesError_eq_ok.trans ?_
    simp [Spells, ShortForm, LongExtranonce, readBack, encode]
  | setNewPrevHash =>
    exact decode_eq_ok_of_fixed .setNewPrevHash decodeSetNewPrevHash_fixed
      SetNewPrevHash.encode_eq_ok fun _ _ => ⟨rfl, id, id⟩
  | setTarget =>
    exact decode_eq_ok_of_fixed .setTarget decodeSetTarget_fixed
      SetTarget.encode_eq_ok fun _ _ => ⟨rfl, id, id⟩

theorem encode_readBack (m : ty.Struct) : ty.encode (ty.readBack m) = ty.encode m := by
  cases ty with
  | newMiningJob =>
    obtain ⟨channelID, jobID, hasNtimeStart, ntimeStart, version, merkleRoot⟩ := m
    cases hasNtimeStart <;> rfl
  | _ => rfl

theorem readBack_readBack (m : ty.Struct) : ty.readBack (ty.readBack m) = ty.readBack m := by
  cases ty with
  | newMiningJob =>
    obtain ⟨channelID, jobID, hasNtimeStart, ntimeStart, version, merkleRoot⟩ := m
    cases hasNtimeStart <;> rfl
  | _ => rfl

/-- Every encoding reads back, whatever follows it. -/
theorem decode_encode {m : ty.Struct} {bs : List UInt8} (h : ty.encode m = .ok bs)
    (t : List UInt8) : ty.decode (bs ++ t) = .ok (ty.readBack m) :=
  decode_eq_ok.mpr ⟨readBack_readBack m, .inl ⟨bs, t, (encode_readBack m).trans h, rfl⟩⟩

theorem LongExtranonce.append {m : ty.Struct} (h : ty.LongExtranonce m p) (t : List UInt8) :
    ty.LongExtranonce m (p ++ t) := by
  cases ty with
  | openMiningChannelSuccess =>
    obtain ⟨hlong, hmax, u, rfl⟩ := h
    exact ⟨hlong, hmax, u ++ t, append_assoc _ _ _⟩
  | _ => exact h.elim

theorem LongExtranonce.not_encode {m : ty.Struct} {bs : List UInt8} (h : ty.LongExtranonce m p) :
    ty.encode m ≠ .ok bs := by
  cases ty with
  | openMiningChannelSuccess =>
    intro henc
    have hmax := (OpenMiningChannelSuccess.encode_eq_ok.mp henc).1
    have hlong := h.1
    omega
  | _ => exact h.elim

theorem ShortForm.length {m : ty.Struct} (h : ty.ShortForm m p) :
    (ty = .submitSharesError ∧ p.length = 8) ∨ (ty = .openMiningChannelError ∧ p.length = 4) := by
  cases ty with
  | submitSharesError =>
    refine .inl ⟨rfl, ?_⟩
    rw [h.2]
    simp
  | openMiningChannelError =>
    refine .inr ⟨rfl, ?_⟩
    rw [h.2]
    simp
  | _ => exact h.elim

/-- A strict prefix of an encoding is refused, unless it stops before the
text of an error message. -/
theorem decode_strictPrefix {m : ty.Struct} {bs : List UInt8} (henc : ty.encode m = .ok bs)
    (hp : p <+: bs) (hne : p ≠ bs) :
    (∃ e, ty.decode p = .error e) ∨ (ty = .submitSharesError ∧ p.length = 8) ∨
      (ty = .openMiningChannelError ∧ p.length = 4) := by
  cases hdec : ty.decode p with
  | error e => exact .inl ⟨e, rfl⟩
  | ok m' =>
    obtain ⟨u, rfl⟩ := hp
    have hfull := decode_encode henc []
    rw [append_nil] at hfull
    obtain ⟨hread, ⟨bs', t, henc', rfl⟩ | hshort | hlong⟩ := decode_eq_ok.mp hdec
    · -- The whole encoding would read back as the same message.
      have hm := decode_encode henc' (t ++ u)
      rw [← append_assoc, hfull, hread] at hm
      have hlen : bs' = bs' ++ t ++ u := by
        have hsame := encode_readBack m
        rw [Except.ok.inj hm, henc', henc] at hsame
        exact Except.ok.inj hsame
      have hnil : t = [] ∧ u = [] := by simpa using hlen
      exact absurd (by simp [hnil]) hne
    · exact .inr hshort.length
    · have hm := decode_eq_ok.mpr ⟨hread, .inr (.inr (hlong.append u))⟩
      rw [hfull] at hm
      have hsame := encode_readBack m
      rw [Except.ok.inj hm] at hsame
      exact absurd (hsame.trans henc) hlong.not_encode

/-- The decoders accept exactly the payloads that start with an encoding,
three documented lenient forms apart; so they refuse truncated payloads,
and they never read beyond the payload. -/
theorem decode_grammar (ty : MsgType) (p : List UInt8) :
    (∀ m, ty.decode p = .ok m ↔ ty.readBack m = m ∧
      ((∃ bs t, ty.encode m = .ok bs ∧ p = bs ++ t) ∨ ty.ShortForm m p ∨
        ty.LongExtranonce m p)) ∧
    (∀ m bs, ty.encode m = .ok bs → p <+: bs → p ≠ bs →
      (∃ e, ty.decode p = .error e) ∨ (ty = .submitSharesError ∧ p.length = 8) ∨
        (ty = .openMiningChannelError ∧ p.length = 4)) ∧
    (∀ e, ty.decode p = .error e → e.InRange) := by
  refine ⟨?_, ?_, ?_⟩
  · intro m
    exact decode_eq_ok
  · intro m bs henc hp hne
    exact decode_strictPrefix henc hp hne
  · intro e h
    exact decode_inRange h

end MsgType

end Otedama.Stratum
