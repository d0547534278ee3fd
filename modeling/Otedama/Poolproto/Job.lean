import Otedama.Framework.Bytes
import Otedama.Framework.Utf8

/-! # Protocol-independent jobs

What a pool session hands to the engine, whichever protocol it speaks. -/

namespace Otedama.Poolproto

/-- `poolproto.Job`, without the time of receipt. `extraNonce` is the
Stratum V1 extranonce2 that `merkleRoot` was computed with; the coinbase
parts and the Merkle branch are what it was computed from. -/
structure Job where
  jobID : GoString
  version : UInt32
  prevHash : Bytes32
  merkleRoot : Bytes32
  nTime : UInt32
  nBits : UInt32
  cleanJobs : Bool
  extraNonce : List UInt8
  coinb1 : List UInt8
  coinb2 : List UInt8
  merkleBranch : List (List UInt8)
  coinbaseTx : List UInt8
  deriving DecidableEq, Repr

/-- Go's zero value of `Job`. -/
def Job.zero : Job where
  jobID := []
  version := 0
  prevHash := Bytes.zero32
  merkleRoot := Bytes.zero32
  nTime := 0
  nBits := 0
  cleanJobs := false
  extraNonce := []
  coinb1 := []
  coinb2 := []
  merkleBranch := []
  coinbaseTx := []

/-- `poolproto.ShareSubmission`. -/
structure ShareSubmission where
  jobID : GoString
  nonce : UInt32
  nTime : UInt32
  extraNonce : List UInt8
  deriving DecidableEq, Repr

end Otedama.Poolproto
