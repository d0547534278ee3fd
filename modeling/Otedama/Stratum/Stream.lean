import Otedama.Stratum.Frame
import Otedama.Stratum.Grammar

/-! # Stratum V2 message streams

Messages are encoded, wrapped in frames and written one after the other;
at the other end frames are read and dispatched until the stream ends.
What arrives is what was sent, however the transport cuts the bytes. -/

namespace Otedama.Stratum

open Bytes Reader List

/-! ## `DispatchFrame` -/

/-- The source's `Message`: one pointer for each message type. -/
structure MessageFields where
  setupConnection : Option SetupConnection := none
  setupConnectionSuccess : Option SetupConnectionSuccess := none
  setupConnectionError : Option SetupConnectionError := none
  openMiningChannel : Option OpenMiningChannel := none
  openMiningChannelSuccess : Option OpenMiningChannelSuccess := none
  openMiningChannelError : Option OpenMiningChannelError := none
  newMiningJob : Option NewMiningJob := none
  setNewPrevHash : Option SetNewPrevHash := none
  setTarget : Option SetTarget := none
  closeChannel : Option CloseChannel := none
  submitSharesStandard : Option SubmitSharesStandard := none
  submitSharesSuccess : Option SubmitSharesSuccess := none
  submitSharesError : Option SubmitSharesError := none
  unknown : Option UnknownMessage := none
  deriving DecidableEq, Repr

/-- How many of the pointers are set. -/
def MessageFields.numSet (x : MessageFields) : Nat :=
  [x.setupConnection.isSome, x.setupConnectionSuccess.isSome, x.setupConnectionError.isSome,
    x.openMiningChannel.isSome, x.openMiningChannelSuccess.isSome,
    x.openMiningChannelError.isSome, x.newMiningJob.isSome, x.setNewPrevHash.isSome,
    x.setTarget.isSome, x.closeChannel.isSome, x.submitSharesStandard.isSome,
    x.submitSharesSuccess.isSome, x.submitSharesError.isSome, x.unknown.isSome].count true

/-- A message as the struct with the matching pointer set. -/
def Message.fields : Message → MessageFields
  | .setupConnection m => { setupConnection := some m }
  | .setupConnectionSuccess m => { setupConnectionSuccess := some m }
  | .setupConnectionError m => { setupConnectionError := some m }
  | .openMiningChannel m => { openMiningChannel := some m }
  | .openMiningChannelSuccess m => { openMiningChannelSuccess := some m }
  | .openMiningChannelError m => { openMiningChannelError := some m }
  | .newMiningJob m => { newMiningJob := some m }
  | .setNewPrevHash m => { setNewPrevHash := some m }
  | .setTarget m => { setTarget := some m }
  | .closeChannel m => { closeChannel := some m }
  | .submitSharesStandard m => { submitSharesStandard := some m }
  | .submitSharesSuccess m => { submitSharesSuccess := some m }
  | .submitSharesError m => { submitSharesError := some m }
  | .unknown m => { unknown := some m }

theorem Message.numSet_fields (m : Message) : m.fields.numSet = 1 := by
  cases m <;> rfl

namespace MsgType

def message : (ty : MsgType) → ty.Struct → Message
  | .setupConnection, m => .setupConnection m
  | .setupConnectionSuccess, m => .setupConnectionSuccess m
  | .setupConnectionError, m => .setupConnectionError m
  | .openMiningChannel, m => .openMiningChannel m
  | .openMiningChannelSuccess, m => .openMiningChannelSuccess m
  | .openMiningChannelError, m => .openMiningChannelError m
  | .newMiningJob, m => .newMiningJob m
  | .closeChannel, m => .closeChannel m
  | .submitSharesStandard, m => .submitSharesStandard m
  | .submitSharesSuccess, m => .submitSharesSuccess m
  | .submitSharesError, m => .submitSharesError m
  | .setNewPrevHash, m => .setNewPrevHash m
  | .setTarget, m => .setTarget m

/-- What a decoder of `frameDecoders` does with the decoded value. -/
def set : (ty : MsgType) → ty.Struct → MessageFields → MessageFields
  | .setupConnection, v, m => { m with setupConnection := some v }
  | .setupConnectionSuccess, v, m => { m with setupConnectionSuccess := some v }
  | .setupConnectionError, v, m => { m with setupConnectionError := some v }
  | .openMiningChannel, v, m => { m with openMiningChannel := some v }
  | .openMiningChannelSuccess, v, m => { m with openMiningChannelSuccess := some v }
  | .openMiningChannelError, v, m => { m with openMiningChannelError := some v }
  | .newMiningJob, v, m => { m with newMiningJob := some v }
  | .closeChannel, v, m => { m with closeChannel := some v }
  | .submitSharesStandard, v, m => { m with submitSharesStandard := some v }
  | .submitSharesSuccess, v, m => { m with submitSharesSuccess := some v }
  | .submitSharesError, v, m => { m with submitSharesError := some v }
  | .setNewPrevHash, v, m => { m with setNewPrevHash := some v }
  | .setTarget, v, m => { m with setTarget := some v }

def all : List MsgType :=
  [.setupConnection, .setupConnectionSuccess, .setupConnectionError, .openMiningChannel,
    .openMiningChannelSuccess, .openMiningChannelError, .newMiningJob, .closeChannel,
    .submitSharesStandard, .submitSharesSuccess, .submitSharesError, .setNewPrevHash, .setTarget]

theorem set_empty {ty : MsgType} (m : ty.Struct) : ty.set m {} = (ty.message m).fields := by
  cases ty <;> rfl

end MsgType

/-- The map `frameDecoders`: the type of the decoder under a `msg_type`. -/
def frameDecoders (msgType : UInt8) : Option MsgType :=
  MsgType.all.find? fun ty => ty.code = msgType

theorem frameDecoders_code (ty : MsgType) : frameDecoders ty.code = some ty := by
  cases ty <;> rfl

def dispatchFrame (f : Frame) : Except DecodeError MessageFields :=
  match frameDecoders f.header.msgType with
  | none => .ok { unknown := some ⟨f.header.msgType, f.payload⟩ }
  | some ty => do
      let v ← ty.decode f.payload
      .ok (ty.set v {})

/-- The message in a frame, as one of its type. -/
def decodeMessage (f : Frame) : Except DecodeError Message :=
  match frameDecoders f.header.msgType with
  | none => .ok (.unknown ⟨f.header.msgType, f.payload⟩)
  | some ty => do
      let v ← ty.decode f.payload
      return ty.message v

theorem dispatchFrame_eq (f : Frame) : dispatchFrame f = Message.fields <$> decodeMessage f := by
  unfold dispatchFrame decodeMessage
  cases frameDecoders f.header.msgType with
  | none => rfl
  | some ty =>
    dsimp only
    cases ty.decode f.payload with
    | error e => rfl
    | ok v =>
      show Except.ok (ty.set v {}) = Except.ok (ty.message v).fields
      rw [MsgType.set_empty]

/-! ## Sending -/

def wrapMessage (msgType : UInt8) (isChannelMsg : Bool) (payload : List UInt8) :
    Except FrameError Frame := do
  let ext := if isChannelMsg then channelMsgBit else 0
  let h : FrameHeader := ⟨ext, msgType, UInt32.ofNat payload.length⟩
  h.validate
  .ok ⟨h, payload⟩

/-- A message with the choice of the channel bit. -/
structure Outgoing where
  type : MsgType
  msg : type.Struct
  isChannelMsg : Bool

inductive SendError where
  | encode (e : EncodeError)
  | frame (e : FrameError)
  deriving DecidableEq, Repr

/-- `Encode`, `WrapMessage` and `EncodeFrame`. -/
def Outgoing.bytes (o : Outgoing) : Except SendError (List UInt8) := do
  let payload ← (o.type.encode o.msg).mapError .encode
  let f ← (wrapMessage o.type.code o.isChannelMsg payload).mapError .frame
  (encodeFrame f).mapError .frame

/-! ## Receiving -/

inductive ReceiveError where
  | read (e : ReadError)
  | decode (e : DecodeError)
  deriving DecidableEq, Repr

/-- At most `fuel` rounds of `ReadFrame` and `DispatchFrame`: the messages, and
the error that ended the rounds, if one did. -/
def receive {σ : Type} (readFull : Nat → EStateM StreamError σ (List UInt8)) :
    Nat → σ → List MessageFields × Option ReceiveError
  | 0, _ => ([], none)
  | fuel + 1, s =>
      match readFrame readFull defaultMaxFrameSize s with
      | .error e _ => ([], some (.read e))
      | .ok f s' =>
        match dispatchFrame f with
        | .error e => ([], some (.decode e))
        | .ok m =>
          let (ms, e) := receive readFull fuel s'
          (m :: ms, e)

/-! ## Pieces -/

section simulation

variable {σ τ : Type} {f : σ → τ} {rf : Nat → EStateM StreamError σ (List UInt8)}
  {rg : Nat → EStateM StreamError τ (List UInt8)}

theorem readPayload_simulates (h : ∀ n, Simulates f (rf n) (rg n)) (maxFrameSize : Int)
    (hd : FrameHeader) :
    Simulates f (readPayload rf maxFrameSize hd) (readPayload rg maxFrameSize hd) := by
  unfold readPayload
  cases hd.validate with
  | error e => exact Simulates.throw f _
  | ok u =>
    dsimp only
    split
    · exact Simulates.throw f _
    · split
      · exact Simulates.bind ((h _).adaptExcept _) fun payload => Simulates.pure f _
      · exact Simulates.pure f _

theorem readFrame_simulates (h : ∀ n, Simulates f (rf n) (rg n)) (maxFrameSize : Int) :
    Simulates f (readFrame rf maxFrameSize) (readFrame rg maxFrameSize) := by
  unfold readFrame
  split
  · exact Simulates.throw f _
  · exact Simulates.bind ((h _).adaptExcept _) fun scratch => readPayload_simulates h _ _

theorem receive_simulates (h : ∀ n, Simulates f (rf n) (rg n)) (fuel : Nat) (s : σ) :
    receive rf fuel s = receive rg fuel (f s) := by
  induction fuel generalizing s with
  | zero => rfl
  | succ fuel ih =>
    have hsim := readFrame_simulates h defaultMaxFrameSize s
    unfold receive
    rw [← hsim]
    cases readFrame rf defaultMaxFrameSize s with
    | error e s' => rfl
    | ok fr s' => simp only [mapState, ih s']

end simulation

/-! ## Round trip -/

/-- No message comes near the limits of a frame. -/
theorem MsgType.encode_length_le {ty : MsgType} {m : ty.Struct} {bs : List UInt8}
    (h : ty.encode m = .ok bs) : bs.length ≤ 1289 := by
  cases ty with
  | setupConnection =>
    simp only [MsgType.encode, SetupConnection.encode, foldlM_cons, foldlM_nil,
      bind_eq_ok, appendStr0255_eq_ok] at h
    obtain ⟨_, ⟨he, rfl⟩, _, ⟨hv, rfl⟩, _, ⟨hh, rfl⟩, _, ⟨hf, rfl⟩, _, ⟨hd, rfl⟩, ⟨rfl⟩⟩ := h
    simp [appendU16LE, appendU32LE]
    omega
  | setupConnectionSuccess =>
    cases h
    simp
  | setupConnectionError | openMiningChannelError | closeChannel | submitSharesError =>
    obtain ⟨hlen, rfl⟩ := appendStr0255_eq_ok.mp h
    simp [appendU32LE]
    omega
  | openMiningChannel =>
    simp only [MsgType.encode, OpenMiningChannel.encode, bind_eq_ok, appendStr0255_eq_ok] at h
    obtain ⟨_, ⟨hlen, rfl⟩, ⟨rfl⟩⟩ := h
    simp [appendU32LE]
    omega
  | openMiningChannelSuccess =>
    obtain ⟨hlen, rfl⟩ := OpenMiningChannelSuccess.encode_eq_ok.mp h
    simp [OpenMiningChannelSuccess.layout]
    omega
  | newMiningJob =>
    obtain ⟨channelID, jobID, hasNtimeStart, ntimeStart, version, merkleRoot⟩ := m
    cases hasNtimeStart <;> (cases h; simp)
  | submitSharesStandard =>
    cases h
    simp
  | submitSharesSuccess =>
    cases h
    simp
  | setNewPrevHash =>
    cases h
    simp
  | setTarget =>
    cases h
    simp

theorem wrapMessage_eq_ok {msgType : UInt8} {isChannelMsg : Bool} {payload : List UInt8}
    {f : Frame} (h : wrapMessage msgType isChannelMsg payload = .ok f) :
    f.header.msgType = msgType ∧ f.payload = payload ∧
      f.header.msgLength = UInt32.ofNat payload.length := by
  unfold wrapMessage at h
  obtain ⟨_, -, hf⟩ := bind_eq_ok.mp h
  cases hf
  exact ⟨rfl, rfl, rfl⟩

/-- What is sent is a whole frame, which dispatches to the message. -/
theorem Outgoing.readFrame_bytes {o : Outgoing} {bs : List UInt8} (h : o.bytes = .ok bs)
    (rest : List UInt8) : ∃ f, readFrame readFull defaultMaxFrameSize (bs ++ rest) = .ok f rest ∧
      dispatchFrame f = .ok (o.type.message (o.type.readBack o.msg)).fields := by
  obtain ⟨payload, hpay, h⟩ := bind_eq_ok.mp h
  obtain ⟨f, hwrap, henc⟩ := bind_eq_ok.mp h
  have hpay' := mapError_eq_ok.mp hpay
  have henc' := mapError_eq_ok.mp henc
  obtain ⟨htype, rfl, hlen⟩ := wrapMessage_eq_ok (mapError_eq_ok.mp hwrap)
  have hle := MsgType.encode_length_le hpay'
  have hmsg : f.header.msgLength.toNat = f.payload.length := by
    rw [hlen, UInt32.toNat_ofNat_of_lt' (lt_of_le_of_lt hle (by decide))]
  have hfits : (headerSize + f.payload.length : Int) ≤ defaultMaxFrameSize := by
    unfold headerSize defaultMaxFrameSize
    omega
  refine ⟨f, (readFrame_eq_ok (by decide)).mpr ⟨hmsg, hfits, bs, henc', rfl⟩, ?_⟩
  have hdec := MsgType.decode_encode hpay' []
  rw [append_nil] at hdec
  rw [dispatchFrame, htype, frameDecoders_code]
  simp only [hdec, ok_bind, MsgType.set_empty]

/-- A whole stream, not cut into pieces. The induction is on the messages
that are still to be read; each round takes one off. -/
theorem receive_flatten {os : List Outgoing} {bss : List (List UInt8)}
    (hsent : os.mapM Outgoing.bytes = .ok bss) {fuel : Nat} (hfuel : os.length < fuel) :
    receive readFull fuel bss.flatten =
      (os.map fun o => (o.type.message (o.type.readBack o.msg)).fields,
        some (.read (.stream .eof))) := by
  induction os generalizing bss fuel with
  | nil =>
    cases hsent
    cases fuel with
    | zero => cases hfuel
    | succ fuel => rfl
  | cons o os ih =>
    rw [mapM_cons] at hsent
    obtain ⟨bs, hbs, hsent⟩ := bind_eq_ok.mp hsent
    obtain ⟨bss', hbss, hsent⟩ := bind_eq_ok.mp hsent
    cases hsent
    cases fuel with
    | zero => cases hfuel
    | succ fuel =>
      obtain ⟨f, hread, hdisp⟩ := Outgoing.readFrame_bytes hbs bss'.flatten
      unfold receive
      rw [flatten_cons, hread]
      simp only [hdisp]
      rw [ih hbss (by simpa using hfuel), map_cons]

/-- Every list of messages survives the wire, however the transport cuts the
bytes: they are received in order, each as the struct with the matching
pointer set, and then the stream ends cleanly. -/
theorem receive_sent (os : List Outgoing) (bss : List (List UInt8))
    (hsent : os.mapM Outgoing.bytes = .ok bss) {cs : Chunks} (hcs : cs.flatten = bss.flatten)
    {fuel : Nat} (hfuel : os.length < fuel) :
    receive readFullChunks fuel cs =
        (os.map fun o => (o.type.message (o.type.readBack o.msg)).fields,
          some (.read (.stream .eof))) ∧
      ∀ x ∈ (receive readFullChunks fuel cs).1, x.numSet = 1 := by
  have hrecv : receive readFullChunks fuel cs = _ :=
    (receive_simulates readFullChunks_simulates fuel cs).trans
      (hcs ▸ receive_flatten hsent hfuel)
  refine ⟨hrecv, ?_⟩
  rw [hrecv]
  intro x hx
  obtain ⟨o, -, rfl⟩ := List.mem_map.mp hx
  exact Message.numSet_fields _

/-- A future job on a channel, and the end of the channel. -/
def sampleOutgoing : List Outgoing :=
  [⟨.newMiningJob, ⟨1, 2, false, 9, 3, zero32⟩, true⟩,
    ⟨.closeChannel, ⟨1, [98, 121, 101]⟩, false⟩]

def sampleBytes : List (List UInt8) := (sampleOutgoing.mapM Outgoing.bytes).toOption.getD []

theorem receive_sampleBytes :
    receive readFullChunks 3 [sampleBytes.flatten.take 3, [], sampleBytes.flatten.drop 3] =
      ([{ newMiningJob := some ⟨1, 2, false, 0, 3, zero32⟩ },
        { closeChannel := some ⟨1, [98, 121, 101]⟩ }], some (.read (.stream .eof))) :=
  (receive_sent sampleOutgoing sampleBytes (by decide +kernel) (by simp)
    (by decide)).1

end Otedama.Stratum
