import Otedama.Stratum.Messages
import Otedama.Stratum.Wire

/-! # Stratum V2 message codecs

`Encode` and `Decode` of the thirteen message types. Some decoders read
the payload field by field, others check its length once and then slice
it at fixed offsets.

Each decoder accepts the payloads that start with an encoding; what
follows the encoding is ignored. Three decoders are more lenient: two
error messages may end before their text, and an extranonce may be longer
than the encoder allows. -/

namespace Otedama.Stratum

open Bytes Reader

/-! ## Encoders -/

def SetupConnection.encode (m : SetupConnection) : Except EncodeError (List UInt8) :=
  let b := [m.protocol]
  let b := appendU16LE b m.minVersion
  let b := appendU16LE b m.maxVersion
  let b := appendU32LE b m.flags
  [m.endpoint, m.vendor, m.hardwareVersion, m.firmware, m.deviceID].foldlM appendStr0255 b

def SetupConnectionSuccess.encode (m : SetupConnectionSuccess) :
    Except EncodeError (List UInt8) :=
  .ok (le16 m.usedVersion ++ le32 m.flags)

def SetupConnectionError.encode (m : SetupConnectionError) : Except EncodeError (List UInt8) :=
  appendStr0255 (appendU32LE [] m.flags) m.error

def OpenMiningChannel.encode (m : OpenMiningChannel) : Except EncodeError (List UInt8) := do
  let b ← appendStr0255 (appendU32LE [] m.reqID) m.user
  let b := appendU32LE b m.nominalHashrate
  .ok (b ++ m.maxTarget.toList)

def OpenMiningChannelSuccess.encode (m : OpenMiningChannelSuccess) :
    Except EncodeError (List UInt8) := do
  let b := appendU32LE [] m.reqID
  let b := appendU32LE b m.channelID
  let b := b ++ m.target.toList
  let b ← appendB032 b m.extranonce
  .ok (appendU32LE b m.groupChannelID)

def OpenMiningChannelError.encode (m : OpenMiningChannelError) :
    Except EncodeError (List UInt8) :=
  appendStr0255 (appendU32LE [] m.reqID) m.error

def NewMiningJob.encode (m : NewMiningJob) : Except EncodeError (List UInt8) :=
  let buf := le32 m.channelID ++ le32 m.jobID
  let buf := if m.hasNtimeStart then buf ++ [1] ++ le32 m.ntimeStart else buf ++ [0]
  .ok (buf ++ le32 m.version ++ m.merkleRoot.toList)

def SetNewPrevHash.encode (m : SetNewPrevHash) : Except EncodeError (List UInt8) :=
  .ok (le32 m.channelID ++ le32 m.jobID ++ m.prevHash.toList ++ le32 m.ntimeStart ++ le32 m.nBits)

def SetTarget.encode (m : SetTarget) : Except EncodeError (List UInt8) :=
  .ok (le32 m.channelID ++ m.target.toList)

def SubmitSharesStandard.encode (m : SubmitSharesStandard) : Except EncodeError (List UInt8) :=
  .ok (le32 m.channelID ++ le32 m.sequenceNumber ++ le32 m.jobID ++ le32 m.nonce ++
    le32 m.nTime ++ le32 m.nVersion)

def SubmitSharesSuccess.encode (m : SubmitSharesSuccess) : Except EncodeError (List UInt8) :=
  .ok (le32 m.channelID ++ le32 m.lastSequenceNumber ++ le32 m.newSubmitsAccepted ++
    le64 m.newSharesSummed)

def SubmitSharesError.encode (m : SubmitSharesError) : Except EncodeError (List UInt8) :=
  let b := appendU32LE [] m.channelID
  let b := appendU32LE b m.sequenceNumber
  appendStr0255 b m.error

def CloseChannel.encode (m : CloseChannel) : Except EncodeError (List UInt8) :=
  appendStr0255 (appendU32LE [] m.channelID) m.reason

/-! ## Field-by-field decoders -/

/-- Read a field, and name it in the error. -/
def field {α : Type} (name : String) (get : Reader DecodeError α) : Reader DecodeError α :=
  get.adaptExcept (.wrapped ("stratum: " ++ name))

def readSetupConnection : Reader DecodeError SetupConnection := do
  let protocol ← field "SetupConnection.Protocol" (readByte.adaptExcept .stream)
  let minVersion ← field "SetupConnection.MinVersion" getU16LE
  let maxVersion ← field "SetupConnection.MaxVersion" getU16LE
  let flags ← field "SetupConnection.Flags" getU32LE
  let endpoint ← field "SetupConnection.Endpoint" getStr0255
  let vendor ← field "SetupConnection.Vendor" getStr0255
  let hardwareVersion ← field "SetupConnection.HardwareVersion" getStr0255
  let firmware ← field "SetupConnection.Firmware" getStr0255
  let deviceID ← field "SetupConnection.DeviceID" getStr0255
  pure ⟨protocol, minVersion, maxVersion, flags, endpoint, vendor, hardwareVersion, firmware,
    deviceID⟩

def decodeSetupConnection (payload : List UInt8) : Except DecodeError SetupConnection :=
  readSetupConnection.eval payload

def readSetupConnectionError : Reader DecodeError SetupConnectionError := do
  let flags ← field "SetupConnectionError.Flags" getU32LE
  let error ← field "SetupConnectionError.Error" getStr0255
  pure ⟨flags, error⟩

def decodeSetupConnectionError (payload : List UInt8) :
    Except DecodeError SetupConnectionError :=
  readSetupConnectionError.eval payload

def readOpenMiningChannel : Reader DecodeError OpenMiningChannel := do
  let reqID ← field "OpenMiningChannel.ReqID" getU32LE
  let user ← field "OpenMiningChannel.User" getStr0255
  let nominalHashrate ← field "OpenMiningChannel.NominalHashrate" getU32LE
  let maxTarget ← field "OpenMiningChannel.MaxTarget" getU256
  pure ⟨reqID, user, nominalHashrate, maxTarget⟩

def decodeOpenMiningChannel (payload : List UInt8) : Except DecodeError OpenMiningChannel :=
  readOpenMiningChannel.eval payload

def readOpenMiningChannelSuccess : Reader DecodeError OpenMiningChannelSuccess := do
  let reqID ← getU32LE
  let channelID ← getU32LE
  let target ← field "OpenMiningChannelSuccess.Target" getU256
  -- The specified type is B0_32; longer ones are let through on purpose.
  let extranonce ← getB0255
  let groupChannelID ← field "OpenMiningChannelSuccess.GroupChannelID" getU32LE
  pure ⟨reqID, channelID, target, extranonce, groupChannelID⟩

def decodeOpenMiningChannelSuccess (payload : List UInt8) :
    Except DecodeError OpenMiningChannelSuccess :=
  readOpenMiningChannelSuccess.eval payload

def readCloseChannel : Reader DecodeError CloseChannel := do
  let channelID ← field "CloseChannel.ChannelID" getU32LE
  let reason ← field "CloseChannel.Reason" getStr0255
  pure ⟨channelID, reason⟩

def decodeCloseChannel (payload : List UInt8) : Except DecodeError CloseChannel :=
  readCloseChannel.eval payload

/-! ## Offset-based decoders -/

def decodeSetupConnectionSuccess (payload : List UInt8) :
    Except DecodeError SetupConnectionSuccess :=
  if payload.length < 6 then .error (.shortPayload "SetupConnectionSuccess" payload.length 6)
  else do
    let usedVersion ← slice payload 0 2
    let flags ← slice payload 2 6
    pure ⟨uint16 usedVersion, uint32 flags⟩

/-- The text after the first `n` bytes, empty if the payload ends there. -/
def textAfter (get : Reader DecodeError GoString) (payload : List UInt8) (n : Nat) :
    Except DecodeError GoString :=
  if payload.length > n then do
    let rest ← slice payload n payload.length
    get.eval rest
  else .ok []

def decodeOpenMiningChannelError (payload : List UInt8) :
    Except DecodeError OpenMiningChannelError :=
  if payload.length < 4 then .error (.shortPayload "OpenMiningChannelError" payload.length 4)
  else do
    let reqID ← slice payload 0 4
    let error ← textAfter (field "OpenMiningChannelError.Error" getStr0255) payload 4
    pure ⟨uint32 reqID, error⟩

/-- The switch over the option byte of `ntime_start` at `off`: the offset
behind the field, whether it is present, and its value. -/
def ntimeStartAt (payload : List UInt8) (off : Nat) : Except DecodeError (Nat × Bool × UInt32) := do
  let count ← byteAt payload off
  if count = 0 then .ok (off + 1, false, 0)
  else if count = 1 then
    if payload.length < off + 1 + 4 + 4 + 32 then .error (.shortNtimeStart payload.length)
    else do
      let ntimeStart ← slice payload (off + 1) (off + 1 + 4)
      .ok (off + 1 + 4, true, uint32 ntimeStart)
  else .error (.invalidOption count)

def decodeNewMiningJob (payload : List UInt8) : Except DecodeError NewMiningJob :=
  let minNeed := 4 + 4 + 1 + 4 + 32
  if payload.length < minNeed then .error (.shortPayload "NewMiningJob" payload.length minNeed)
  else do
    let channelID ← slice payload 0 4
    let jobID ← slice payload 4 8
    let (off, hasNtimeStart, ntimeStart) ← ntimeStartAt payload 8
    let version ← slice payload off (off + 4)
    let merkleRoot ← slice payload (off + 4) (off + 4 + 32)
    pure ⟨uint32 channelID, uint32 jobID, hasNtimeStart, ntimeStart, uint32 version,
      copy32 merkleRoot⟩

def decodeSetNewPrevHash (payload : List UInt8) : Except DecodeError SetNewPrevHash :=
  let need := 4 + 4 + 32 + 4 + 4
  if payload.length < need then .error (.shortPayload "SetNewPrevHash" payload.length need)
  else do
    let channelID ← slice payload 0 4
    let jobID ← slice payload 4 8
    let prevHash ← slice payload 8 40
    let ntimeStart ← slice payload 40 44
    let nBits ← slice payload 44 48
    pure ⟨uint32 channelID, uint32 jobID, copy32 prevHash, uint32 ntimeStart, uint32 nBits⟩

def decodeSetTarget (payload : List UInt8) : Except DecodeError SetTarget :=
  let need := 4 + 32
  if payload.length < need then .error (.shortPayload "SetTarget" payload.length need)
  else do
    let channelID ← slice payload 0 4
    let target ← slice payload 4 36
    pure ⟨uint32 channelID, copy32 target⟩

def decodeSubmitSharesStandard (payload : List UInt8) :
    Except DecodeError SubmitSharesStandard :=
  if payload.length < 24 then .error (.shortPayload "SubmitSharesStandard" payload.length 24)
  else do
    let channelID ← slice payload 0 4
    let sequenceNumber ← slice payload 4 8
    let jobID ← slice payload 8 12
    let nonce ← slice payload 12 16
    let nTime ← slice payload 16 20
    let nVersion ← slice payload 20 24
    pure ⟨uint32 channelID, uint32 sequenceNumber, uint32 jobID, uint32 nonce, uint32 nTime,
      uint32 nVersion⟩

def decodeSubmitSharesSuccess (payload : List UInt8) : Except DecodeError SubmitSharesSuccess :=
  if payload.length < 20 then .error (.shortPayload "SubmitSharesSuccess" payload.length 20)
  else do
    let channelID ← slice payload 0 4
    let lastSequenceNumber ← slice payload 4 8
    let newSubmitsAccepted ← slice payload 8 12
    let newSharesSummed ← slice payload 12 20
    pure ⟨uint32 channelID, uint32 lastSequenceNumber, uint32 newSubmitsAccepted,
      uint64 newSharesSummed⟩

def decodeSubmitSharesError (payload : List UInt8) : Except DecodeError SubmitSharesError :=
  if payload.length < 8 then .error (.shortPayload "SubmitSharesError" payload.length 8)
  else do
    let channelID ← slice payload 0 4
    let sequenceNumber ← slice payload 4 8
    let error ← textAfter getStr0255 payload 8
    pure ⟨uint32 channelID, uint32 sequenceNumber, error⟩

/-! ## The thirteen types -/

/-- The message types with an encoder and a decoder. -/
inductive MsgType where
  | setupConnection
  | setupConnectionSuccess
  | setupConnectionError
  | openMiningChannel
  | openMiningChannelSuccess
  | openMiningChannelError
  | newMiningJob
  | closeChannel
  | submitSharesStandard
  | submitSharesSuccess
  | submitSharesError
  | setNewPrevHash
  | setTarget
  deriving DecidableEq, Repr

namespace MsgType

/-- The messages of a type. -/
abbrev Struct : MsgType → Type
  | .setupConnection => SetupConnection
  | .setupConnectionSuccess => SetupConnectionSuccess
  | .setupConnectionError => SetupConnectionError
  | .openMiningChannel => OpenMiningChannel
  | .openMiningChannelSuccess => OpenMiningChannelSuccess
  | .openMiningChannelError => OpenMiningChannelError
  | .newMiningJob => NewMiningJob
  | .closeChannel => CloseChannel
  | .submitSharesStandard => SubmitSharesStandard
  | .submitSharesSuccess => SubmitSharesSuccess
  | .submitSharesError => SubmitSharesError
  | .setNewPrevHash => SetNewPrevHash
  | .setTarget => SetTarget

/-- The `msg_type` on the wire. -/
def code : MsgType → UInt8
  | .setupConnection => 0x00
  | .setupConnectionSuccess => 0x01
  | .setupConnectionError => 0x02
  | .openMiningChannel => 0x10
  | .openMiningChannelSuccess => 0x11
  | .openMiningChannelError => 0x12
  | .newMiningJob => 0x15
  | .closeChannel => 0x18
  | .submitSharesStandard => 0x1a
  | .submitSharesSuccess => 0x1c
  | .submitSharesError => 0x1d
  | .setNewPrevHash => 0x20
  | .setTarget => 0x21

/-- `Encode` of each type. -/
def encode : (ty : MsgType) → ty.Struct → Except EncodeError (List UInt8)
  | .setupConnection => SetupConnection.encode
  | .setupConnectionSuccess => SetupConnectionSuccess.encode
  | .setupConnectionError => SetupConnectionError.encode
  | .openMiningChannel => OpenMiningChannel.encode
  | .openMiningChannelSuccess => OpenMiningChannelSuccess.encode
  | .openMiningChannelError => OpenMiningChannelError.encode
  | .newMiningJob => NewMiningJob.encode
  | .closeChannel => CloseChannel.encode
  | .submitSharesStandard => SubmitSharesStandard.encode
  | .submitSharesSuccess => SubmitSharesSuccess.encode
  | .submitSharesError => SubmitSharesError.encode
  | .setNewPrevHash => SetNewPrevHash.encode
  | .setTarget => SetTarget.encode

/-- `Decode` of each type. -/
def decode : (ty : MsgType) → List UInt8 → Except DecodeError ty.Struct
  | .setupConnection => decodeSetupConnection
  | .setupConnectionSuccess => decodeSetupConnectionSuccess
  | .setupConnectionError => decodeSetupConnectionError
  | .openMiningChannel => decodeOpenMiningChannel
  | .openMiningChannelSuccess => decodeOpenMiningChannelSuccess
  | .openMiningChannelError => decodeOpenMiningChannelError
  | .newMiningJob => decodeNewMiningJob
  | .closeChannel => decodeCloseChannel
  | .submitSharesStandard => decodeSubmitSharesStandard
  | .submitSharesSuccess => decodeSubmitSharesSuccess
  | .submitSharesError => decodeSubmitSharesError
  | .setNewPrevHash => decodeSetNewPrevHash
  | .setTarget => decodeSetTarget

end MsgType

end Otedama.Stratum
