import Otedama.Framework.Hex
import Otedama.Framework.Machine
import Otedama.Miner.Header
import Otedama.Poolproto.Job

/-! # The Stratum V1 session

How `mining.notify`, `mining.set_extranonce` and the answer to
`mining.subscribe` are parsed, how a job is completed with the
extranonces, and how a share is put into a `mining.submit`.

Texts have been split into JSON values; what `json.Unmarshal` does with a
value is modelled per target type. SHA-256 is a parameter. -/

namespace Otedama.Poolproto

open Miner List

/-! ## JSON values -/

/-- A JSON value. A number comes with whether it is written without a
fraction and an exponent, as `json.Unmarshal` into an `int` demands. -/
inductive Json where
  | null
  | bool (b : Bool)
  | num (value : ℚ) (plain : Bool)
  | str (s : GoString)
  | arr (items : List Json)
  | obj (fields : List (GoString × Json))

/-- `json.Unmarshal` into a `string`; `null` leaves the zero value. -/
def unmarshalString : Json → Option GoString
  | .null => some []
  | .str s => some s
  | _ => none

/-- `json.Unmarshal` into a `[]string`. -/
def unmarshalStrings : Json → Option (List GoString)
  | .null => some []
  | .arr items => items.mapM unmarshalString
  | _ => none

/-- `json.Unmarshal` into a `bool`. -/
def unmarshalBool : Json → Option Bool
  | .null => some false
  | .bool b => some b
  | _ => none

/-- `json.Unmarshal` into an `int`. -/
def unmarshalInt : Json → Option Int
  | .null => some 0
  | .num value true =>
      if value.den = 1 ∧ -2 ^ 63 ≤ value.num ∧ value.num < 2 ^ 63 then some value.num else none
  | _ => none

/-- `json.Unmarshal` into a `[]json.RawMessage`. -/
def unmarshalRaw : Json → Option (List Json)
  | .null => some []
  | .arr items => some items
  | _ => none

/-- `json.Unmarshal` into a `float64`, with exact numbers: in the source `1e400`
is an error and `1e-400` is zero. -/
def unmarshalFloat : Json → Option ℚ
  | .null => some 0
  | .num value _ => some value
  | _ => none

/-- `json.Unmarshal` into a `[]float64`. -/
def unmarshalFloats : Json → Option (List ℚ)
  | .null => some []
  | .arr items => items.mapM unmarshalFloat
  | _ => none

/-! ## mining.notify -/

/-- Why a `mining.notify` is refused. -/
inductive NotifyError where
  /-- A parameter is of the wrong JSON type. -/
  | json
  | params (got : Nat)
  | coinb1
  | coinb2
  | merkleBranch
  | version (err : Hex.NumError)
  | nbits (err : Hex.NumError)
  | ntime (err : Hex.NumError)
  | prevhash
  deriving DecidableEq, Repr

/-- The fields of a `mining.notify` before the hexadecimal texts are decoded. -/
structure NotifyStrings where
  jobID : GoString
  prevHashHex : GoString
  coinb1Hex : GoString
  coinb2Hex : GoString
  merkleBranchHexs : List GoString
  versionHex : GoString
  nbitsHex : GoString
  ntimeHex : GoString
  cleanJobs : Bool
  deriving DecidableEq, Repr

/-- `clean_jobs`; some pools send 0 or 1. -/
def unmarshalCleanJobs (raw : Json) : Option Bool :=
  match unmarshalBool raw with
  | some b => some b
  | none => (unmarshalInt raw).map fun n => decide (n ≠ 0)

/-- Decode the nine positional parameters. -/
def unmarshalNotifyParams (p : List Json) : Option NotifyStrings :=
  match p with
  | p₀ :: p₁ :: p₂ :: p₃ :: p₄ :: p₅ :: p₆ :: p₇ :: p₈ :: _ => do
      let jobID ← unmarshalString p₀
      let prevHashHex ← unmarshalString p₁
      let coinb1Hex ← unmarshalString p₂
      let coinb2Hex ← unmarshalString p₃
      let merkleBranchHexs ← unmarshalStrings p₄
      let versionHex ← unmarshalString p₅
      let nbitsHex ← unmarshalString p₆
      let ntimeHex ← unmarshalString p₇
      let cleanJobs ← unmarshalCleanJobs p₈
      return { jobID, prevHashHex, coinb1Hex, coinb2Hex, merkleBranchHexs, versionHex, nbitsHex,
               ntimeHex, cleanJobs }
  | _ => none

/-- A part of the coinbase, which must not be empty. -/
def decodeCoinb (text : GoString) (err : NotifyError) : Except NotifyError (List UInt8) :=
  match Hex.decode text with
  | none => .error err
  | some b => if b.length = 0 then .error err else .ok b

/-- One hash of the Merkle branch. -/
def decodeBranch (text : GoString) : Except NotifyError (List UInt8) :=
  match Hex.decode text with
  | none => .error .merkleBranch
  | some b => if b.length ≠ 32 then .error .merkleBranch else .ok b

/-- Reverse the bytes of each 4-byte word. -/
def swapWords (b : Bytes32) : Bytes32 :=
  Vector.ofFn fun i => b[4 * (i.val / 4) + (3 - i.val % 4)]

/-- The previous block hash, which is sent with each word reversed. -/
def decodePrevHash (text : GoString) : Except NotifyError Bytes32 :=
  match Hex.decode text with
  | none => .error .prevhash
  | some b =>
      if h : b.length = 32 then .ok (swapWords ⟨b.toArray, by simp [h]⟩) else .error .prevhash

/-- Decode the texts of a `mining.notify`. The Merkle root is completed
later. -/
def decodeNotifyJob (ns : NotifyStrings) : Except NotifyError Job := do
  let coinb1 ← decodeCoinb ns.coinb1Hex .coinb1
  let coinb2 ← decodeCoinb ns.coinb2Hex .coinb2
  let merkleBranch ← ns.merkleBranchHexs.mapM decodeBranch
  let version ← (Hex.parseUint32 ns.versionHex).mapError .version
  let nBits ← (Hex.parseUint32 ns.nbitsHex).mapError .nbits
  let nTime ← (Hex.parseUint32 ns.ntimeHex).mapError .ntime
  let prevHash ← decodePrevHash ns.prevHashHex
  return { Job.zero with
    jobID := ns.jobID, cleanJobs := ns.cleanJobs, coinb1 := coinb1, coinb2 := coinb2,
    merkleBranch := merkleBranch, version := version, nBits := nBits, nTime := nTime,
    prevHash := prevHash }

/-- Decode the parameters of a `mining.notify`. -/
def parseNotify (raw : Json) : Except NotifyError Job :=
  match unmarshalRaw raw with
  | none => .error .json
  | some p =>
      if p.length < 9 then .error (.params p.length)
      else
        match unmarshalNotifyParams p with
        | none => .error .json
        | some ns => decodeNotifyJob ns

/-! ## Extranonces -/

/-- The negotiated extranonce1, in hexadecimal, and the size of extranonce2. -/
structure ExtranoncePair where
  en1 : GoString
  size : Int
  deriving DecidableEq, Repr

def maxExtranonce2Size : Int := 64

def extranonce2SizeOK (sz : Int) : Bool := 0 < sz && sz ≤ maxExtranonce2Size

def extranonce1OK (en1 : GoString) : Bool :=
  if en1 = [] then false
  else
    match Hex.decode en1 with
    | none => false
    | some b => 0 < b.length

/-- Decode the parameters of a `mining.set_extranonce`. -/
def parseSetExtranonce (raw : Json) : Option ExtranoncePair :=
  match unmarshalRaw raw with
  | some (p₀ :: p₁ :: _) =>
      match unmarshalString p₀, unmarshalInt p₁ with
      | some en1, some sz =>
          if !extranonce1OK en1 || !extranonce2SizeOK sz then none
          else some { en1 := en1, size := sz }
      | _, _ => none
  | _ => none

/-- Why the answer to `mining.subscribe` is refused. -/
inductive SubscribeError where
  | unexpectedResult (len : Nat)
  | extranonce1NotString
  | extranonce1NotHex (en1 : GoString)
  | sizeNotNumber
  | sizeOutOfRange (size : ℚ)
  deriving DecidableEq, Repr

/-- The extranonces in the answer to `mining.subscribe`. The size is checked
before it is made an integer. -/
def parseSubscribeResult (result : Json) : Except SubscribeError ExtranoncePair :=
  match result with
  | .arr (_ :: r₁ :: r₂ :: _) =>
      match r₁ with
      | .str en1 =>
          if !extranonce1OK en1 then .error (.extranonce1NotHex en1)
          else
            match r₂ with
            | .num size _ =>
                if size.den ≠ 1 ∨ size ≤ 0 ∨ 64 < size then .error (.sizeOutOfRange size)
                else .ok { en1 := en1, size := size.num }
            | _ => .error .sizeNotNumber
      | _ => .error .extranonce1NotString
  | .arr items => .error (.unexpectedResult items.length)
  | _ => .error (.unexpectedResult 0)

/-! ## Completing jobs -/

/-- The state of a session that jobs and submits depend on. -/
structure V1State where
  extranonce : Option ExtranoncePair
  en2Counter : UInt64
  deriving DecidableEq, Repr

/-- The counter `n` big-endian in the last bytes of a field of `size` bytes. -/
def extranonce2 (size : Nat) (n : UInt64) : List UInt8 :=
  (List.range size).map fun k =>
    let i := size - 1 - k
    if i < 8 then (n >>> UInt64.ofNat (8 * i)).toUInt8 else 0

/-- Fold the extranonces into the coinbase and the coinbase into the Merkle
root. A job without coinbase parts, or before the extranonces are known,
is left as it is. The hash of the tree is a parameter. -/
def completeV1JobWith (hash256 : List UInt8 → Bytes32) (s : V1State) (j : Job) : V1State × Job :=
  match s.extranonce with
  | none => (s, j)
  | some ep =>
      if j.coinb1.length = 0 ∨ j.coinb2.length = 0 ∨ ep.en1 = [] ∨ ep.size ≤ 0 ∨ 64 < ep.size then
        (s, j)
      else
        match Hex.decode ep.en1 with
        | none => (s, j)
        | some en1 =>
            -- The counter makes every job's coinbase different.
            let n := s.en2Counter + 1
            let en2 := extranonce2 ep.size.toNat n
            let coinbase := j.coinb1 ++ en1 ++ en2 ++ j.coinb2
            let root := j.merkleBranch.foldl
              (fun root branch => hash256 (root.toList ++ branch)) (hash256 coinbase)
            ({ s with en2Counter := n },
             { j with merkleRoot := root, extraNonce := en2, coinbaseTx := coinbase })

section

variable (sha256 : List UInt8 → Bytes32)

/-- Complete a job with double SHA-256. -/
def completeV1Job (s : V1State) (j : Job) : V1State × Job :=
  completeV1JobWith (sha256d sha256) s j

/-- A `mining.notify` arrives: the job for the engine, if it is well formed. -/
def handleNotify (s : V1State) (params : Json) : V1State × Option Job :=
  match parseNotify params with
  | .error _ => (s, none)
  | .ok job =>
      let r := completeV1Job sha256 s job
      (r.1, some r.2)

end

def handleSetExtranonce (s : V1State) (params : Json) : V1State :=
  match parseSetExtranonce params with
  | none => s
  | some ep => { s with extranonce := some ep }

/-- The difficulty in a `mining.set_difficulty`, if it is positive. -/
def parseDifficulty (raw : Json) : Option ℚ :=
  match unmarshalFloats raw with
  | some (d :: _) => if d ≤ 0 then none else some d
  | _ => none

/-- The capacity of the channel of jobs. -/
def jobsChCap : Nat := 8

/-- Put a job into the channel of jobs. One with `clean_jobs` purges the
channel first; when the channel is full the oldest job gives way. -/
def sendJob (jobsCh : List Job) (job : Job) : List Job :=
  let jobsCh := if job.cleanJobs then [] else jobsCh
  if jobsCh.length < jobsChCap then jobsCh ++ [job] else jobsCh.drop 1 ++ [job]

theorem mem_sendJob {jobsCh : List Job} {job j : Job} (h : j ∈ sendJob jobsCh job) :
    j ∈ jobsCh ∨ j = job := by
  unfold sendJob at h
  have hsub : ∀ x ∈ (if job.cleanJobs then [] else jobsCh), x ∈ jobsCh := by
    intro x hx
    split at hx
    · cases hx
    · exact hx
  dsimp only at h
  generalize (if job.cleanJobs = true then [] else jobsCh) = kept at h hsub
  split at h
  · rcases mem_append.mp h with hold | hnew
    · exact .inl (hsub j hold)
    · exact .inr (mem_singleton.mp hnew)
  · rcases mem_append.mp h with hold | hnew
    · exact .inl (hsub j (mem_of_mem_drop hold))
    · exact .inr (mem_singleton.mp hnew)

/-- The messages of the pool that the state depends on. -/
inductive V1Message where
  | notify (params : Json)
  | setExtranonce (params : Json)

/-- The session as a machine: it reads messages and hands jobs to the engine. -/
def v1Session (sha256 : List UInt8 → Bytes32) : Machine V1State V1Message Job where
  step s
    | .notify params =>
        let r := handleNotify sha256 s params
        (r.1, r.2.toList)
    | .setExtranonce params => (handleSetExtranonce s params, [])

/-! ## mining.submit -/

/-- The worker name when none was authorized: `otedama`. -/
def defaultWorkerName : GoString := [0x6f, 0x74, 0x65, 0x64, 0x61, 0x6d, 0x61]

/-- The parameters of a `mining.submit`. An empty extranonce2 is padded with
zeros to the negotiated size. -/
def submitParams (s : V1State) (authorizedUser : Option GoString) (sub : ShareSubmission) :
    List GoString :=
  let en2 := Hex.encode sub.extraNonce
  let en2 :=
    -- Only a share that carries no extranonce2 is padded.
    if en2 = [] then
      let sz := match s.extranonce with
        | some ep => ep.size
        | none => 0
      List.replicate (2 * (min (max sz 0) maxExtranonce2Size).toNat) 0x30
    else en2
  let workerName := match authorizedUser with
    | some user => if user = [] then defaultWorkerName else user
    | none => defaultWorkerName
  [workerName, sub.jobID, en2, Hex.format32 sub.nTime, Hex.format32 sub.nonce]

end Otedama.Poolproto
