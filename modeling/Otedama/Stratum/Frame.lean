import Otedama.Framework.Reader

/-! # Stratum V2 frames

The frame layer: a six-byte header with the type and the length of the
payload, then the payload. `readFrame` takes one frame off a stream and
never asks the stream for more than `maxFrameSize` bytes.

The documentation of `ReadFrame` promises `io.EOF` between frames only,
and `io.ErrUnexpectedEOF` for a frame that is cut off. A stream that ends
right behind a header breaks the promise: the payload is read by a second
`io.ReadFull`, which finds nothing and reports `io.EOF`. -/

namespace Otedama.Stratum

open Bytes Reader List Nat

/-! ## Headers -/

def headerSize : Nat := 6

def maxMessageLength : Nat := 2 ^ 24 - 1

def defaultMaxFrameSize : Int := 16 * 1024 * 1024

def minimumChannelPayload : Nat := 4

def channelMsgBit : UInt16 := 0x8000

structure FrameHeader where
  extensionType : UInt16
  msgType : UInt8
  msgLength : UInt32
  deriving DecidableEq, Repr

inductive FrameError where
  /-- `stratum: MsgLength %d exceeds U24 maximum %d` -/
  | lengthExceeds (len : Nat)
  /-- `stratum: channel message requires payload >= %d bytes, got %d` -/
  | channelPayload (len : Nat)
  /-- `stratum: dst too small: need %d bytes, got %d` -/
  | dstTooSmall (len : Nat)
  /-- `stratum: payload length %d exceeds U24 maximum %d` -/
  | payloadTooLong (len : Nat)
  /-- `stratum: header truncated: need %d bytes, got %d` -/
  | headerTruncated (len : Nat)
  /-- `stratum: Decoder.MaxFrameSize must be positive` -/
  | maxFrameSize
  /-- `stratum: frame size %d exceeds MaxFrameSize %d` -/
  | frameTooLarge (total : Nat) (max : Int)
  deriving DecidableEq, Repr

def FrameHeader.channelMsg (h : FrameHeader) : Bool := h.extensionType &&& channelMsgBit != 0

def FrameHeader.validate (h : FrameHeader) : Except FrameError Unit :=
  if h.msgLength.toNat > maxMessageLength then .error (.lengthExceeds h.msgLength.toNat)
  else if h.channelMsg && h.msgLength.toNat < minimumChannelPayload then
    .error (.channelPayload h.msgLength.toNat)
  else .ok ()

/-- The three low-order bytes of a length. -/
def putU24 (v : UInt32) : List UInt8 := [v.toUInt8, (v >>> 8).toUInt8, (v >>> 16).toUInt8]

def u24 (low mid high : UInt8) : UInt32 :=
  low.toUInt32 ||| mid.toUInt32 <<< 8 ||| high.toUInt32 <<< 16

/-- What `EncodeHeader` writes. -/
def FrameHeader.bytes (h : FrameHeader) : List UInt8 :=
  le16 h.extensionType ++ [h.msgType] ++ putU24 h.msgLength

def encodeHeader (dst : List UInt8) (h : FrameHeader) : Except FrameError (List UInt8) := do
  h.validate
  if dst.length < headerSize then .error (.dstTooSmall dst.length)
  else .ok (h.bytes ++ dst.drop headerSize)

def decodeHeader : List UInt8 → Except FrameError FrameHeader
  | ext0 :: ext1 :: msgType :: low :: mid :: high :: _ =>
      .ok ⟨uint16 [ext0, ext1], msgType, u24 low mid high⟩
  | src => .error (.headerTruncated src.length)

/-! ## Frames -/

structure Frame where
  header : FrameHeader
  payload : List UInt8
  deriving DecidableEq, Repr

/-- The header with `MsgLength` overwritten by the length of the payload, so
that the caller cannot emit an inconsistent frame. -/
def Frame.sealed (f : Frame) : FrameHeader :=
  { f.header with msgLength := UInt32.ofNat f.payload.length }

def encodeFrame (f : Frame) : Except FrameError (List UInt8) :=
  if f.payload.length > maxMessageLength then .error (.payloadTooLong f.payload.length)
  else do
    f.sealed.validate
    let buf := List.replicate headerSize 0
    -- The error is ignored: it cannot occur here.
    let head :=
      match encodeHeader buf f.sealed with
      | .ok dst => dst
      | .error _ => buf
    .ok (head ++ f.payload)

inductive ReadError where
  | stream (e : StreamError)
  | frame (e : FrameError)
  deriving DecidableEq, Repr

/-- The header in the scratch buffer. The buffer has six bytes, so the error
that is ignored here cannot occur. -/
def scratchHeader (scratch : List UInt8) : FrameHeader :=
  match decodeHeader scratch with
  | .ok h => h
  | .error _ => ⟨0, 0, 0⟩

/-- The part of `ReadFrame` behind the header. -/
def readPayload {σ : Type} (readFull : Nat → EStateM StreamError σ (List UInt8))
    (maxFrameSize : Int) (h : FrameHeader) : EStateM ReadError σ Frame :=
  match h.validate with
  | .error e => throw (.frame e)
  | .ok () =>
    let total := headerSize + h.msgLength.toNat
    if (total : Int) > maxFrameSize then throw (.frame (.frameTooLarge total maxFrameSize))
    else if h.msgLength > 0 then do
      let payload ← (readFull h.msgLength.toNat).adaptExcept .stream
      pure ⟨h, payload⟩
    else pure ⟨h, []⟩

/-- `ReadFrame`, for any source that `io.ReadFull` reads from. -/
def readFrame {σ : Type} (readFull : Nat → EStateM StreamError σ (List UInt8))
    (maxFrameSize : Int) : EStateM ReadError σ Frame :=
  if maxFrameSize ≤ 0 then throw (.frame .maxFrameSize)
  else do
    let scratch ← (readFull headerSize).adaptExcept .stream
    readPayload readFull maxFrameSize (scratchHeader scratch)

/-! ## The header code -/

theorem putU24_eq (v : UInt32) : putU24 v = leBytes 3 v.toNat := by
  have hmid : v.toNat >>> 8 % 256 = v.toNat / 256 % 256 := by
    rw [Nat.shiftRight_eq_div_pow]
  have hhigh : v.toNat >>> 16 % 256 = v.toNat / 256 / 256 % 256 := by
    rw [Nat.shiftRight_eq_div_pow, Nat.div_div_eq_div_mul]
  simp [putU24, leBytes, ← UInt8.toNat_inj, hmid, hhigh]

theorem toNat_u24 (low mid high : UInt8) : (u24 low mid high).toNat = leValue [low, mid, high] := by
  have hlow := low.toNat_lt
  have hmid := mid.toNat_lt
  have hhigh := high.toNat_lt
  have hm : mid.toNat <<< 8 % 4294967296 = mid.toNat <<< 8 := by
    rw [shiftLeft_eq]
    omega
  have hh : high.toNat <<< 16 % 4294967296 = high.toNat <<< 16 := by
    rw [shiftLeft_eq]
    omega
  -- The three bytes occupy disjoint bits, so the disjunctions are sums.
  have hor : low.toNat ||| mid.toNat <<< 8 = mid.toNat <<< 8 + low.toNat := by
    rw [Nat.or_comm, shiftLeft_add_eq_or_of_lt hlow]
  have hor' : (mid.toNat <<< 8 + low.toNat) ||| high.toNat <<< 16 =
      high.toNat <<< 16 + (mid.toNat <<< 8 + low.toNat) := by
    have hlt : mid.toNat <<< 8 + low.toNat < 2 ^ 16 := by
      rw [shiftLeft_eq]
      omega
    rw [Nat.or_comm, ← shiftLeft_add_eq_or_of_lt hlt]
  calc (u24 low mid high).toNat
      = low.toNat ||| mid.toNat <<< 8 % 4294967296 ||| high.toNat <<< 16 % 4294967296 := by
        simp [u24]
    _ = high.toNat <<< 16 + (mid.toNat <<< 8 + low.toNat) := by rw [hm, hh, hor, hor']
    _ = leValue [low, mid, high] := by
        simp only [shiftLeft_eq, leValue]
        omega

@[simp] theorem FrameHeader.length_bytes (h : FrameHeader) : h.bytes.length = headerSize := by
  simp [FrameHeader.bytes, putU24_eq, headerSize]

/-- Six bytes are the header they decode to, and its length fits in 24 bits. -/
theorem bytes_decodeHeader (hd : List UInt8) (hlen : hd.length = headerSize) :
    ∃ h : FrameHeader, h.msgLength.toNat ≤ maxMessageLength ∧ hd = h.bytes := by
  match hd, hlen with
  | [ext0, ext1, msgType, low, mid, high], _ =>
    have hlt := leValue_lt [low, mid, high]
    have hext : le16 (uint16 [ext0, ext1]) = [ext0, ext1] := le16_uint16 rfl
    have hput : putU24 (u24 low mid high) = [low, mid, high] := by
      rw [putU24_eq, toNat_u24]
      exact leBytes_leValue [low, mid, high]
    refine ⟨⟨uint16 [ext0, ext1], msgType, u24 low mid high⟩, ?_, ?_⟩
    · show (u24 low mid high).toNat ≤ maxMessageLength
      rw [toNat_u24]
      simp only [length_cons, length_nil] at hlt
      unfold maxMessageLength
      omega
    · rw [FrameHeader.bytes, hext, hput]
      rfl

theorem decodeHeader_bytes {h : FrameHeader} (hlen : h.msgLength.toNat ≤ maxMessageLength)
    (t : List UInt8) : decodeHeader (h.bytes ++ t) = .ok h := by
  obtain ⟨ext, msgType, len⟩ := h
  have hext : [UInt8.ofNat (ext.toNat % 256), UInt8.ofNat (ext.toNat / 256 % 256)] = le16 ext := rfl
  have hu24 : u24 len.toUInt8 (len >>> 8).toUInt8 (len >>> 16).toUInt8 = len := by
    rw [← UInt32.toNat_inj, toNat_u24]
    show leValue (putU24 len) = len.toNat
    rw [putU24_eq, leValue_leBytes (lt_of_le_pred (by decide) hlen)]
  show Except.ok _ = _
  rw [hext, uint16_le16, hu24]

/-! ## What `readFrame` does -/

theorem encodeFrame_eq_ok {f : Frame} {bs : List UInt8} : encodeFrame f = .ok bs ↔
      f.payload.length ≤ maxMessageLength ∧ f.sealed.validate = .ok () ∧
        bs = f.sealed.bytes ++ f.payload := by
  unfold encodeFrame
  by_cases hlen : f.payload.length > maxMessageLength
  · rw [if_pos hlen]
    simp only [reduceCtorEq, false_iff, not_and]
    omega
  · rw [if_neg hlen]
    cases hval : f.sealed.validate with
    | error e => simp [bind, Except.bind]
    | ok u =>
      have hhead : encodeHeader (replicate headerSize 0) f.sealed = .ok f.sealed.bytes := by
        simp [encodeHeader, hval, headerSize]
      have hle : f.payload.length ≤ maxMessageLength := by omega
      simp [hhead, hle, eq_comm]

section readFrame

variable {maxFrameSize : Int}

/-- A stream shorter than a header. -/
theorem readFrame_of_short (hmax : 0 < maxFrameSize) {B : List UInt8} (hB : B.length < headerSize) :
    readFrame readFull maxFrameSize B =
      .error (.stream (if B = [] then .eof else .unexpectedEOF)) [] := by
  unfold readFrame
  rw [if_neg (by omega), bind_apply, adaptExcept_apply, readFull_of_lt hB]

/-- A stream that starts with a header. -/
theorem readFrame_of_header (hmax : 0 < maxFrameSize) {h : FrameHeader}
    (hlen : h.msgLength.toNat ≤ maxMessageLength) (t : List UInt8) :
    readFrame readFull maxFrameSize (h.bytes ++ t) =
      match h.validate with
      | .error e => .error (.frame e) t
      | .ok () =>
        if (headerSize + h.msgLength.toNat : Int) > maxFrameSize then
          .error (.frame (.frameTooLarge (headerSize + h.msgLength.toNat) maxFrameSize)) t
        else if h.msgLength.toNat ≤ t.length then
          .ok ⟨h, t.take h.msgLength.toNat⟩ (t.drop h.msgLength.toNat)
        else .error (.stream (if t = [] then .eof else .unexpectedEOF)) [] := by
  have hfull : readFull headerSize (h.bytes ++ t) = .ok h.bytes t := by
    rw [readFull_of_le (by simp)]
    simp
  have hdec : scratchHeader h.bytes = h := by
    have hbytes := decodeHeader_bytes hlen []
    rw [append_nil] at hbytes
    rw [scratchHeader, hbytes]
  unfold readFrame
  rw [if_neg (by omega), bind_apply, adaptExcept_apply, hfull]
  dsimp only
  rw [hdec, readPayload]
  cases h.validate with
  | error e => rfl
  | ok u =>
    simp only [cast_add]
    by_cases hbig : (headerSize + h.msgLength.toNat : Int) > maxFrameSize
    · rw [if_pos hbig, if_pos hbig]
      rfl
    rw [if_neg hbig, if_neg hbig]
    by_cases hpos : h.msgLength > 0
    · rw [if_pos hpos, bind_apply, adaptExcept_apply]
      by_cases hle : h.msgLength.toNat ≤ t.length
      · rw [if_pos hle, readFull_of_le hle]
        rfl
      · rw [if_neg hle, readFull_of_lt (by omega)]
    · have hzero : h.msgLength.toNat = 0 := by
        rw [gt_iff_lt, UInt32.lt_iff_toNat_lt] at hpos
        exact Nat.eq_zero_of_not_pos hpos
      rw [if_neg hpos, hzero, if_pos (zero_le _)]
      rfl

theorem Frame.sealed_eq {f : Frame} (h : f.header.msgLength.toNat = f.payload.length) :
    f.sealed = f.header := by
  rw [Frame.sealed, ← h, UInt32.ofNat_toNat]

/-- Every stream is too short for a header or starts with one. -/
theorem header_cases (B : List UInt8) : B.length < headerSize ∨
      ∃ (h : FrameHeader) (t : List UInt8), h.msgLength.toNat ≤ maxMessageLength ∧ B = h.bytes ++ t := by
  by_cases hlen : B.length < headerSize
  · exact .inl hlen
  · obtain ⟨h, hmsg, hbytes⟩ := bytes_decodeHeader (B.take headerSize) (by simp; omega)
    refine .inr ⟨h, B.drop headerSize, hmsg, ?_⟩
    rw [← hbytes, take_append_drop]

end readFrame

/-! ## Classification of streams -/

/-- The stream starts with the encoding of a frame of at most `maxFrameSize`
bytes, whose header has the length of the payload as its length. -/
def StartsWithFrame (maxFrameSize : Int) (B : List UInt8) (f : Frame) (rest : List UInt8) : Prop :=
  f.header.msgLength.toNat = f.payload.length ∧
    (headerSize + f.payload.length : Int) ≤ maxFrameSize ∧
      ∃ bs, encodeFrame f = .ok bs ∧ B = bs ++ rest

/-- The stream starts with a valid header that announces `n` bytes, within
the limit. -/
def Announces (maxFrameSize : Int) (B : List UInt8) (n : Nat) : Prop :=
  ∃ h, decodeHeader B = .ok h ∧ h.validate = .ok () ∧ h.msgLength.toNat = n ∧
    (headerSize + n : Int) ≤ maxFrameSize

/-- The stream ends within a header, or within the payload it announces. -/
def Truncated (maxFrameSize : Int) (B : List UInt8) : Prop :=
  (1 ≤ B.length ∧ B.length ≤ 5) ∨
    ∃ n, Announces maxFrameSize B n ∧ headerSize ≤ B.length ∧ B.length < headerSize + n

/-- The documented behaviour of `ReadFrame` on the stream `B`. -/
structure Classified (maxFrameSize : Int) (B : List UInt8) : Prop where
  frame : ∀ f rest,
    readFrame readFull maxFrameSize B = .ok f rest ↔ StartsWithFrame maxFrameSize B f rest
  eof : (∃ rest, readFrame readFull maxFrameSize B = .error (.stream .eof) rest) ↔ B = []
  unexpectedEOF :
    (∃ rest, readFrame readFull maxFrameSize B = .error (.stream .unexpectedEOF) rest) ↔
      Truncated maxFrameSize B
  /-- Every other stream is refused, and nothing behind the header is read. -/
  other : B ≠ [] → ¬ Truncated maxFrameSize B →
    (∀ f rest, ¬ StartsWithFrame maxFrameSize B f rest) →
      ∃ e, readFrame readFull maxFrameSize B = .error (.frame e) (B.drop headerSize)

/-- The stream is a header that announces a payload, and nothing else. -/
def HeaderOnly (maxFrameSize : Int) (B : List UInt8) : Prop :=
  B.length = headerSize ∧ ∃ n, Announces maxFrameSize B n ∧ 0 < n

section classification

variable {maxFrameSize : Int} {B t : List UInt8} {h : FrameHeader}

theorem announces_bytes (hlen : h.msgLength.toNat ≤ maxMessageLength) {n : Nat} :
    Announces maxFrameSize (h.bytes ++ t) n ↔
      h.validate = .ok () ∧ h.msgLength.toNat = n ∧ (headerSize + n : Int) ≤ maxFrameSize := by
  unfold Announces
  rw [decodeHeader_bytes hlen]
  simp

theorem readFrame_eq_ok (hmax : 0 < maxFrameSize) {f : Frame} {rest : List UInt8} :
    readFrame readFull maxFrameSize B = .ok f rest ↔ StartsWithFrame maxFrameSize B f rest := by
  constructor
  · intro hread
    obtain hshort | ⟨h, t, hlen, rfl⟩ := header_cases B
    · rw [readFrame_of_short hmax hshort] at hread
      cases hread
    rw [readFrame_of_header hmax hlen] at hread
    cases hval : h.validate with
    | error e =>
      rw [hval] at hread
      cases hread
    | ok u =>
      rw [hval] at hread
      dsimp only at hread
      split at hread
      · cases hread
      next hbig =>
      split at hread
      next hle =>
        cases hread
        have hpay : h.msgLength.toNat = (t.take h.msgLength.toNat).length := by simp [hle]
        have hsealed := Frame.sealed_eq (f := ⟨h, t.take h.msgLength.toNat⟩) hpay
        refine ⟨hpay, ?_, _, encodeFrame_eq_ok.mpr ⟨?_, ?_, rfl⟩, ?_⟩
        · show (headerSize + (t.take h.msgLength.toNat).length : Int) ≤ _
          rw [← hpay]
          omega
        · exact hpay ▸ hlen
        · rw [hsealed, hval]
        · rw [hsealed, append_assoc, take_append_drop]
      · cases hread
  · rintro ⟨hpay, hfits, bs, henc, rfl⟩
    obtain ⟨hlen, hval, rfl⟩ := encodeFrame_eq_ok.mp henc
    rw [Frame.sealed_eq hpay] at hval ⊢
    rw [append_assoc, readFrame_of_header hmax (hpay ▸ hlen), hval, hpay]
    dsimp only
    rw [if_neg (by omega), if_pos (by simp)]
    simp

/-- What `readFrame` finds: no header, a header it refuses, a whole frame, or
a frame that is cut off. -/
theorem readFrame_cases (hmax : 0 < maxFrameSize) (B : List UInt8) :
    (B.length < headerSize ∧ readFrame readFull maxFrameSize B =
      .error (.stream (if B = [] then .eof else .unexpectedEOF)) []) ∨
    ∃ t, B.length = headerSize + t.length ∧ t = B.drop headerSize ∧
      (((∀ n, ¬ Announces maxFrameSize B n) ∧
        ∃ e, readFrame readFull maxFrameSize B = .error (.frame e) t) ∨
      ∃ n, (∀ n', Announces maxFrameSize B n' ↔ n' = n) ∧
        ((n ≤ t.length ∧ ∃ f rest, readFrame readFull maxFrameSize B = .ok f rest) ∨
         (t.length < n ∧ readFrame readFull maxFrameSize B =
            .error (.stream (if t = [] then .eof else .unexpectedEOF)) []))) := by
  obtain hshort | ⟨h, t, hlen, rfl⟩ := header_cases B
  · exact .inl ⟨hshort, readFrame_of_short hmax hshort⟩
  refine .inr ⟨t, by simp, by simp, ?_⟩
  simp only [announces_bytes hlen]
  rw [readFrame_of_header hmax hlen]
  cases hval : h.validate with
  | error e => exact .inl ⟨by simp, e, rfl⟩
  | ok u =>
    dsimp only
    by_cases hbig : (headerSize + h.msgLength.toNat : Int) > maxFrameSize
    · rw [if_pos hbig]
      refine .inl ⟨?_, _, rfl⟩
      rintro n ⟨-, rfl, hfits⟩
      omega
    · rw [if_neg hbig]
      refine .inr ⟨h.msgLength.toNat, ?_, ?_⟩
      · intro n'
        constructor
        · rintro ⟨-, rfl, -⟩
          rfl
        · rintro rfl
          exact ⟨rfl, rfl, by omega⟩
      · by_cases hle : h.msgLength.toNat ≤ t.length
        · rw [if_pos hle]
          exact .inl ⟨hle, _, _, rfl⟩
        · rw [if_neg hle]
          exact .inr ⟨by omega, rfl⟩

theorem ne_nil_of_header (hlen : B.length = headerSize + t.length) : B ≠ [] := by
  have hsize : headerSize = 6 := rfl
  rintro rfl
  rw [length_nil] at hlen
  omega

theorem readFrame_eq_eof (hmax : 0 < maxFrameSize) :
    (∃ rest, readFrame readFull maxFrameSize B = .error (.stream .eof) rest) ↔
      B = [] ∨ HeaderOnly maxFrameSize B := by
  unfold HeaderOnly
  obtain ⟨hlen, hread⟩ | ⟨t, hlen, -, ⟨hann, e, hread⟩ | ⟨n, hann, hcase⟩⟩ := readFrame_cases hmax B
  · rw [hread]
    by_cases hnil : B = []
    · simp [hnil]
    · have hne : B.length ≠ headerSize := by omega
      simp [hnil, hne]
  · have hne : B ≠ [] := ne_nil_of_header hlen
    rw [hread]
    simp [hne, hann]
  · have hne : B ≠ [] := ne_nil_of_header hlen
    obtain ⟨hle, f, rest, hread⟩ | ⟨hlt, hread⟩ := hcase
    · have hpay : ¬ (B.length = headerSize ∧ 0 < n) := by omega
      rw [hread]
      simp only [reduceCtorEq, exists_false, hne, hann, exists_eq_left, false_or, hpay]
    · rw [hread]
      by_cases hnil : t = []
      · have hpos : 0 < n := by omega
        simp [hnil, hann, hpos, hlen]
      · have hlen' : B.length ≠ headerSize := by
          have := length_pos_iff.mpr hnil
          omega
        simp [hnil, hne, hlen']

theorem readFrame_eq_unexpectedEOF (hmax : 0 < maxFrameSize) :
    (∃ rest, readFrame readFull maxFrameSize B = .error (.stream .unexpectedEOF) rest) ↔
      Truncated maxFrameSize B ∧ ¬ HeaderOnly maxFrameSize B := by
  have hsize : headerSize = 6 := rfl
  unfold Truncated HeaderOnly
  obtain ⟨hlen, hread⟩ | ⟨t, hlen, -, ⟨hann, e, hread⟩ | ⟨n, hann, hcase⟩⟩ := readFrame_cases hmax B
  · rw [hread]
    by_cases hnil : B = []
    · simp [hnil, hsize]
    · have hpos := length_pos_iff.mpr hnil
      have hne : B.length ≠ headerSize := by omega
      have hfive : 1 ≤ B.length ∧ B.length ≤ 5 := by omega
      simp [hnil, hne, hfive]
  · have hfive : ¬ B.length ≤ 5 := by omega
    rw [hread]
    simp [hann, hfive]
  · have hfive : ¬ B.length ≤ 5 := by omega
    simp only [hann, exists_eq_left, hfive, and_false, false_or]
    obtain ⟨hle, f, rest, hread⟩ | ⟨hlt, hread⟩ := hcase
    · rw [hread]
      simp only [reduceCtorEq, exists_false, false_iff]
      omega
    · rw [hread]
      by_cases hnil : t = []
      · simp [hnil, hlen]
        omega
      · have hpos := length_pos_iff.mpr hnil
        simp [hnil]
        omega

theorem readFrame_other (hmax : 0 < maxFrameSize) (hne : B ≠ []) (htrunc : ¬ Truncated maxFrameSize B)
    (hframe : ∀ f rest, ¬ StartsWithFrame maxFrameSize B f rest) :
    ∃ e, readFrame readFull maxFrameSize B = .error (.frame e) (B.drop headerSize) := by
  have hsize : headerSize = 6 := rfl
  have hpos := length_pos_iff.mpr hne
  obtain ⟨hlen, -⟩ | ⟨t, hlen, rfl, ⟨-, hread⟩ | ⟨n, hann, hcase⟩⟩ := readFrame_cases hmax B
  · exact absurd (.inl (by omega)) htrunc
  · exact hread
  · obtain ⟨-, f, rest, hread⟩ | ⟨hlt, -⟩ := hcase
    · exact absurd ((readFrame_eq_ok hmax).mp hread) (hframe f rest)
    · exact absurd (.inr ⟨n, (hann n).mpr rfl, by omega, by omega⟩) htrunc

/-- A stream is classified as documented exactly if it does not end right
behind a header that announces a payload. -/
theorem classified_iff (hmax : 0 < maxFrameSize) :
    Classified maxFrameSize B ↔ ¬ HeaderOnly maxFrameSize B := by
  constructor
  · rintro hclass honly
    have hnil : B = [] := hclass.eof.mp ((readFrame_eq_eof hmax).mpr (.inr honly))
    have hlen := honly.1
    rw [hnil] at hlen
    cases hlen
  · intro honly
    refine ⟨fun f rest => readFrame_eq_ok hmax, ?_, ?_, readFrame_other hmax⟩
    · rw [readFrame_eq_eof hmax]
      simp [honly]
    · rw [readFrame_eq_unexpectedEOF hmax]
      simp [honly]

end classification

/-- A header that announces one byte, at the end of the stream. -/
theorem not_classified_headerOnly : ¬ Classified defaultMaxFrameSize [0, 0, 1, 1, 0, 0] := by
  intro h
  have heof : readFrame readFull defaultMaxFrameSize [0, 0, 1, 1, 0, 0] =
      .error (.stream .eof) [] := by
    rfl
  exact absurd (h.eof.mp ⟨[], heof⟩) (by decide)

/-- A header without payload is a frame. -/
theorem classified_emptyPayload : Classified defaultMaxFrameSize [0, 0, 1, 0, 0, 0] := by
  refine (classified_iff (by decide)).mpr ?_
  rintro ⟨-, n, ⟨h, hdec, -, hlen, -⟩, hpos⟩
  cases hdec
  exact absurd hlen (Nat.ne_of_lt hpos)

end Otedama.Stratum
