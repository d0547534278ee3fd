import Otedama.Framework.Bytes
import Otedama.Framework.Utf8

/-! # Stratum V2 messages

The decoded messages of the Stratum V2 mining protocol. In the source
`Message` is a struct of fourteen pointers of which `DispatchFrame` sets
exactly one; here it is the corresponding inductive type. -/

namespace Otedama.Stratum

/-! ## Connection set-up -/

structure SetupConnection where
  protocol : UInt8
  minVersion : UInt16
  maxVersion : UInt16
  flags : UInt32
  endpoint : GoString
  vendor : GoString
  hardwareVersion : GoString
  firmware : GoString
  deviceID : GoString
  deriving DecidableEq, Repr

structure SetupConnectionSuccess where
  usedVersion : UInt16
  flags : UInt32
  deriving DecidableEq, Repr

structure SetupConnectionError where
  flags : UInt32
  error : GoString
  deriving DecidableEq, Repr

/-- `nominalHashrate` is a `float32`, carried by its bits. -/
structure OpenMiningChannel where
  reqID : UInt32
  user : GoString
  nominalHashrate : UInt32
  maxTarget : Bytes32
  deriving DecidableEq, Repr

structure OpenMiningChannelSuccess where
  reqID : UInt32
  channelID : UInt32
  target : Bytes32
  extranonce : List UInt8
  groupChannelID : UInt32
  deriving DecidableEq, Repr

structure OpenMiningChannelError where
  reqID : UInt32
  error : GoString
  deriving DecidableEq, Repr

/-! ## Mining -/

/-- A block template. Without `ntime_start` (`hasNtimeStart = false`) it is
a *future job*, to be mined only once a `SetNewPrevHash` names it. -/
structure NewMiningJob where
  channelID : UInt32
  jobID : UInt32
  hasNtimeStart : Bool
  ntimeStart : UInt32
  version : UInt32
  merkleRoot : Bytes32
  deriving DecidableEq, Repr

/-- The new chain tip. It activates the job it names and invalidates every
other one. -/
structure SetNewPrevHash where
  channelID : UInt32
  jobID : UInt32
  prevHash : Bytes32
  ntimeStart : UInt32
  nBits : UInt32
  deriving DecidableEq, Repr

structure SetTarget where
  channelID : UInt32
  target : Bytes32
  deriving DecidableEq, Repr

structure SubmitSharesStandard where
  channelID : UInt32
  sequenceNumber : UInt32
  jobID : UInt32
  nonce : UInt32
  nTime : UInt32
  nVersion : UInt32
  deriving DecidableEq, Repr

structure SubmitSharesSuccess where
  channelID : UInt32
  lastSequenceNumber : UInt32
  newSubmitsAccepted : UInt32
  newSharesSummed : UInt64
  deriving DecidableEq, Repr

structure SubmitSharesError where
  channelID : UInt32
  sequenceNumber : UInt32
  error : GoString
  deriving DecidableEq, Repr

structure CloseChannel where
  channelID : UInt32
  reason : GoString
  deriving DecidableEq, Repr

/-- A frame whose `msg_type` has no decoder. -/
structure UnknownMessage where
  msgType : UInt8
  payload : List UInt8
  deriving DecidableEq, Repr

inductive Message where
  | setupConnection (m : SetupConnection)
  | setupConnectionSuccess (m : SetupConnectionSuccess)
  | setupConnectionError (m : SetupConnectionError)
  | openMiningChannel (m : OpenMiningChannel)
  | openMiningChannelSuccess (m : OpenMiningChannelSuccess)
  | openMiningChannelError (m : OpenMiningChannelError)
  | newMiningJob (m : NewMiningJob)
  | setNewPrevHash (m : SetNewPrevHash)
  | setTarget (m : SetTarget)
  | closeChannel (m : CloseChannel)
  | submitSharesStandard (m : SubmitSharesStandard)
  | submitSharesSuccess (m : SubmitSharesSuccess)
  | submitSharesError (m : SubmitSharesError)
  | unknown (m : UnknownMessage)
  deriving DecidableEq, Repr

/-! ## Classification -/

/-- The `channel_id` of a channel-scoped message; `none` for messages that
belong to no channel. -/
def channelIDOf : Message → Option UInt32
  | .newMiningJob m => some m.channelID
  | .setNewPrevHash m => some m.channelID
  | .setTarget m => some m.channelID
  | .submitSharesSuccess m => some m.channelID
  | .submitSharesError m => some m.channelID
  | .closeChannel m => some m.channelID
  | _ => none

/-- The wire `msg_type` of a decoded message that has no place after the
handshake: set-up messages, and the one only a client may send. -/
def misplacedMsgType : Message → Option UInt8
  | .setupConnection _ => some 0x00
  | .setupConnectionSuccess _ => some 0x01
  | .setupConnectionError _ => some 0x02
  | .openMiningChannel _ => some 0x10
  | .openMiningChannelSuccess _ => some 0x11
  | .openMiningChannelError _ => some 0x12
  | .submitSharesStandard _ => some 0x1a
  | _ => none

/-- Is the message a `SetNewPrevHash`? -/
def Message.isSetNewPrevHash : Message → Bool
  | .setNewPrevHash _ => true
  | _ => false

/-- Is the message a `CloseChannel`? -/
def Message.isCloseChannel : Message → Bool
  | .closeChannel _ => true
  | _ => false

end Otedama.Stratum
