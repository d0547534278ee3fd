import Otedama.Engine.Stats
import Otedama.Framework.GoMap
import Otedama.Framework.Machine
import Otedama.Miner.Worker
import Otedama.Stratum.Messages

/-! # The Stratum V2 session loop

`runSession` after a successful handshake: a loop that reads pool frames,
shares found by the workers and ticks, and keeps

* the job table, the chain tip and the active job,
* the share target,
* the submitted shares that the pool has not answered yet.

The loop is a `Machine`. Its inputs are events together with what the
turn reads from its surroundings (`Env`); its outputs are the calls it
makes on other components (`Effect`). Log lines and the gauges derived
from this state are not modelled. -/

namespace Otedama.Engine

open Miner Stratum

/-! ## State, inputs and outputs -/

/-- Most outstanding jobs kept. -/
def jobsCap : Nat := 64

/-- Most unanswered submits kept. -/
def submitTimesCap : UInt32 := 1024

/-- What a session is opened with: its own channel, the group channel that
contains it, and whether there is another pool to fail over to. -/
structure SessionOpts where
  chanID : UInt32
  groupID : UInt32
  yieldFailover : Bool
  deriving DecidableEq, Repr

/-- What one turn of the loop reads besides the event. -/
structure Env where
  /-- Wall clock, in nanoseconds. -/
  now : Nat
  /-- `isCurtailed()`: the price gate is raised. -/
  curtailed : Bool
  /-- Devices paused by arbitration. -/
  paused : List String
  /-- `submits.take()`: the rate limiter has a token. -/
  token : Bool
  /-- `sendMsg` succeeds. -/
  sent : Bool
  deriving DecidableEq, Repr

/-- Share counters. They live as long as the engine, so a session sees them
with whatever values earlier sessions left. -/
structure ShareMetrics where
  sharesFound : Nat
  sharesSubmitted : Nat
  sharesSubmitDropped : Nat
  sharesAccepted : Nat
  sharesRejected : Nat
  rejectReason : RejectReason → Nat

/-- The error a session ends with. -/
inductive SessionEnd where
  | ctxDone
  | poolClosedConnection
  | poolRead
  | yieldDegraded
  | poolClosedChannel (channelID : UInt32) (reason : List Char)
  | submitShare
  deriving DecidableEq, Repr

/-- The local variables of the session loop. `ended` is set once the loop
has returned. -/
structure SessionV2 where
  jobs : GoMap UInt32 NewMiningJob
  jobOrder : List UInt32
  active : Option NewMiningJob
  activeNTime : UInt32
  prevHash : Bytes32
  prevNBits : UInt32
  havePrev : Bool
  shareTarget : Hash
  seqNum : UInt32
  submitTimes : GoMap UInt32 Nat
  submitTargets : GoMap UInt32 Hash
  startAccepted : Nat
  startRejected : Nat
  seenUnknown : List UInt8
  seenMisplaced : List UInt8
  m : ShareMetrics
  ended : Option SessionEnd

/-- The loop's variables right after the handshake, which delivered the
initial share target. -/
def SessionV2.start (shareTarget : Hash) (m : ShareMetrics) : SessionV2 where
  jobs := ∅
  jobOrder := []
  active := none
  activeNTime := 0
  prevHash := Bytes.zero32
  prevNBits := 0
  havePrev := false
  shareTarget := shareTarget
  seqNum := 0
  submitTimes := ∅
  submitTargets := ∅
  startAccepted := m.sharesAccepted
  startRejected := m.sharesRejected
  seenUnknown := []
  seenMisplaced := []
  m := m
  ended := none

/-- The channels the loop selects on. -/
inductive Event where
  | ctxDone
  | statsTick
  | poolClosed
  | poolReadError
  | poolMsg (msg : Message)
  | sharesClosed
  | share (sh : Share)
  deriving DecidableEq, Repr

/-- Calls made on other components. -/
inductive Effect where
  /-- `updateWork` with the current tip and share target. -/
  | updateWork (job : NewMiningJob) (prevHash : Bytes32) (prevNBits ntime : UInt32)
      (shareTarget : Hash)
  /-- `SetWork(nil)` on every worker. -/
  | idleWorkers
  /-- `latency.Record` when the submit `seq` is settled. -/
  | recordLatency (seq : UInt32) (sent now : Nat)
  /-- A share goes out on the wire. -/
  | submit (sub : SubmitSharesStandard)
  deriving DecidableEq, Repr

/-! ## Jobs and the chain tip -/

/-- Drop the oldest jobs until at most `jobsCap` are left. -/
def evictOldest : GoMap UInt32 NewMiningJob → List UInt32 →
    GoMap UInt32 NewMiningJob × List UInt32
  | jobs, [] => (jobs, [])
  | jobs, id :: order =>
      if jobsCap < (id :: order).length then evictOldest (jobs.erase id) order
      else (jobs, id :: order)

/-- Insert a job, evicting the oldest-inserted ones beyond the cap. -/
def storeBoundedJob (jobs : GoMap UInt32 NewMiningJob) (order : List UInt32)
    (j : NewMiningJob) : GoMap UInt32 NewMiningJob × List UInt32 :=
  let order := if j.jobID ∈ jobs then order else order ++ [j.jobID]
  evictOldest (jobs.insert j.jobID j) order

/-- Make `j` the active job and point the workers at it. While curtailed
the state is still tracked but the workers stay idle. -/
def startJob (env : Env) (s : SessionV2) (j : NewMiningJob) (ntime : UInt32) :
    SessionV2 × List Effect :=
  ({ s with active := some j, activeNTime := ntime },
   if env.curtailed then []
   else [.updateWork j s.prevHash s.prevNBits ntime s.shareTarget])

def onNewMiningJob (env : Env) (s : SessionV2) (j : NewMiningJob) :
    SessionV2 × List Effect :=
  let stored := storeBoundedJob s.jobs s.jobOrder j
  let s := { s with jobs := stored.1, jobOrder := stored.2 }
  -- A job without `ntime_start`, or one that arrives before any tip, waits.
  if j.hasNtimeStart && s.havePrev then startJob env s j j.ntimeStart else (s, [])

def onSetNewPrevHash (env : Env) (s : SessionV2) (p : SetNewPrevHash) :
    SessionV2 × List Effect :=
  let s' := { s with prevHash := p.prevHash, prevNBits := p.nBits, havePrev := true }
  match s.jobs.lookup p.jobID with
  | some named =>
      -- The other jobs were for the old tip.
      let s' := { s' with jobs := AList.singleton p.jobID named, jobOrder := [p.jobID] }
      -- A timestamp below the job's own minimum would be rejected.
      let ntime :=
        if named.hasNtimeStart && p.ntimeStart < named.ntimeStart then named.ntimeStart
        else p.ntimeStart
      startJob env s' named ntime
  | none =>
      -- The tip names a job that never arrived: stop hashing.
      ({ s' with jobs := ∅, jobOrder := [], active := none }, [.idleWorkers])

def onSetTarget (env : Env) (s : SessionV2) (t : SetTarget) : SessionV2 × List Effect :=
  let s := { s with shareTarget := t.target }
  -- Shares ground to the old target would be rejected: issue the job again.
  match s.active with
  | some j => if s.havePrev then startJob env s j s.activeNTime else (s, [])
  | none => (s, [])

/-! ## Answers to submitted shares -/

/-- The accumulators of the loop that settles a batch of submits. -/
structure Settling where
  times : GoMap UInt32 Nat
  targets : GoMap UInt32 Hash
  settled : Nat
  out : List Effect

/-- One iteration of the settling loop. -/
def settleOne (last : UInt32) (now : Nat) (a : Settling) (entry : (_ : UInt32) × Nat) :
    Settling :=
  if entry.1 ≤ last then
    { times := a.times.erase entry.1
      targets := a.targets.erase entry.1
      settled := a.settled + 1
      out := a.out ++ [.recordLatency entry.1 entry.2 now] }
  else a

/-- Settle every outstanding submit up to `last`. -/
def settleUpTo (last : UInt32) (now : Nat) (times : GoMap UInt32 Nat)
    (targets : GoMap UInt32 Hash) : Settling :=
  times.entries.foldl (settleOne last now)
    { times := times, targets := targets, settled := 0, out := [] }

/-- How many accepts to credit. The pool's own count is used only when it
is between one and the number of submits that this frame settled. -/
def creditedSubmits (claimed : UInt32) (settled : Nat) : Nat :=
  if claimed = 0 ∨ settled < claimed.toNat then settled else claimed.toNat

def onSubmitSharesSuccess (env : Env) (s : SessionV2) (r : SubmitSharesSuccess) :
    SessionV2 × List Effect :=
  -- An acknowledgement of a share that was never sent is dropped.
  if s.seqNum < r.lastSequenceNumber then (s, [])
  else
    let a := settleUpTo r.lastSequenceNumber env.now s.submitTimes s.submitTargets
    let n := creditedSubmits r.newSubmitsAccepted a.settled
    ({ s with
       submitTimes := a.times
       submitTargets := a.targets
       m := { s.m with sharesAccepted := s.m.sharesAccepted + n } }, a.out)

/-- Count one reject under `reason`. -/
def ShareMetrics.countReason (m : ShareMetrics) (reason : RejectReason) : ShareMetrics :=
  { m with rejectReason := Function.update m.rejectReason reason (m.rejectReason reason + 1) }

/-- Count the verdict of one rejected share. A difficulty reject that only a
retarget explains is not held against the pool. -/
def ShareMetrics.countReject (m : ShareMetrics) (transition : Bool) (category : RejectReason) :
    ShareMetrics :=
  if transition then m.countReason .difficultyTransition
  else { m with sharesRejected := m.sharesRejected + 1 }.countReason category

def onSubmitSharesError (env : Env) (s : SessionV2) (e : SubmitSharesError) :
    SessionV2 × List Effect :=
  if s.seqNum < e.sequenceNumber then (s, [])
  else
    match s.submitTimes.lookup e.sequenceNumber with
    | none => (s, [])  -- replayed, fabricated, or reaped meanwhile
    | some sent =>
      let category := rejectClass (Poolproto.sanitizePoolText e.error)
      let transition :=
        match s.submitTargets.lookup e.sequenceNumber with
        | some issued => transitionReject category issued s.shareTarget
        | none => false
      ({ s with
         submitTimes := s.submitTimes.erase e.sequenceNumber
         submitTargets := s.submitTargets.erase e.sequenceNumber
         m := s.m.countReject transition category },
       [.recordLatency e.sequenceNumber sent env.now])

/-! ## Frames -/

/-- The guard at the top of the frame handler: is the frame addressed to a
channel that is not ours? `SetNewPrevHash` is exempt, and so is a
`CloseChannel` for our group. -/
def foreignFrame (opts : SessionOpts) (msg : Message) : Bool :=
  match channelIDOf msg with
  | none => false
  | some cid =>
      cid != opts.chanID && !msg.isSetNewPrevHash &&
        !(msg.isCloseChannel && cid == opts.groupID)

/-- Handle a frame that passed the guard. -/
def handleMsg (env : Env) (s : SessionV2) : Message → SessionV2 × List Effect
  | .newMiningJob j => onNewMiningJob env s j
  | .setNewPrevHash p => onSetNewPrevHash env s p
  | .setTarget t => onSetTarget env s t
  | .submitSharesSuccess r => onSubmitSharesSuccess env s r
  | .submitSharesError e => onSubmitSharesError env s e
  | .closeChannel cc =>
      ({ s with
         ended := some (.poolClosedChannel cc.channelID (Poolproto.sanitizePoolText cc.reason)) },
       [])
  | .unknown u =>
      -- Warn once per type, then drop.
      (if u.msgType ∈ s.seenUnknown then s
       else { s with seenUnknown := u.msgType :: s.seenUnknown }, [])
  | msg =>
      match misplacedMsgType msg with
      | some mt =>
          (if mt ∈ s.seenMisplaced then s
           else { s with seenMisplaced := mt :: s.seenMisplaced }, [])
      | none => (s, [])

def onPoolMsg (opts : SessionOpts) (env : Env) (s : SessionV2) (msg : Message) :
    SessionV2 × List Effect :=
  if foreignFrame opts msg then (s, []) else handleMsg env s msg

/-! ## Shares -/

/-- Drop the entries of unanswered submits older than `cutoff`. -/
def reapOne (cutoff : UInt32) (a : GoMap UInt32 Nat × GoMap UInt32 Hash) (seq : UInt32) :
    GoMap UInt32 Nat × GoMap UInt32 Hash :=
  if seq < cutoff then (a.1.erase seq, a.2.erase seq) else a

/-- The reaper: once more than `submitTimesCap` submits are unanswered, only
those of the last `submitTimesCap / 2` sequence numbers are kept. -/
def reap (seqNum : UInt32) (times : GoMap UInt32 Nat) (targets : GoMap UInt32 Hash) :
    GoMap UInt32 Nat × GoMap UInt32 Hash :=
  if submitTimesCap.toNat < times.len then
    times.keys.foldl (reapOne (seqNum - submitTimesCap / 2)) (times, targets)
  else (times, targets)

/-- The message that reports a share, under the version that was hashed. -/
def submitMsg (opts : SessionOpts) (seqNum : UInt32) (sh : Share) : SubmitSharesStandard where
  channelID := opts.chanID
  sequenceNumber := seqNum
  jobID := sh.jobID
  nonce := sh.nonce
  nTime := sh.nTime
  nVersion := sh.version

/-- Is the share of another job than the active one? -/
def superseded (s : SessionV2) (sh : Share) : Bool :=
  match s.active with
  | none => true
  | some j => sh.jobID != j.jobID

def onShare (opts : SessionOpts) (env : Env) (s : SessionV2) (sh : Share) :
    SessionV2 × List Effect :=
  -- Found shares take a sequence number whether or not they are sent.
  let s := { s with
    seqNum := s.seqNum + 1
    m := { s.m with sharesFound := s.m.sharesFound + 1 } }
  if superseded s sh || !env.token then
    ({ s with m := { s.m with sharesSubmitDropped := s.m.sharesSubmitDropped + 1 } }, [])
  else if !env.sent then ({ s with ended := some .submitShare }, [])
  else
    let maps := reap s.seqNum (s.submitTimes.insert s.seqNum env.now)
      (s.submitTargets.insert s.seqNum sh.target)
    ({ s with
       submitTimes := maps.1
       submitTargets := maps.2
       m := { s.m with sharesSubmitted := s.m.sharesSubmitted + 1 } },
     [.submit (submitMsg opts s.seqNum sh)])

/-- A share is submitted only if it bears the identifier of the active job. -/
theorem onShare_cases (opts : SessionOpts) (env : Env) (s : SessionV2) (sh : Share) :
    (∃ j, s.active = some j ∧ sh.jobID = j.jobID ∧
      (onShare opts env s sh).2 = [.submit (submitMsg opts (s.seqNum + 1) sh)]) ∨
    (onShare opts env s sh).2 = [] := by
  unfold onShare
  dsimp only
  split
  · exact .inr rfl
  · next hguard =>
    split
    · exact .inr rfl
    · left
      cases hactive : s.active with
      | none => simp [superseded, hactive] at hguard
      | some j =>
        have hid : sh.jobID = j.jobID := by
          simp only [superseded, hactive, Bool.or_eq_true, not_or] at hguard
          simpa using hguard.1
        exact ⟨j, rfl, hid, rfl⟩

/-! ## The loop -/

/-- The part of a stats tick that can end the session. -/
def onStatsTick (opts : SessionOpts) (s : SessionV2) : SessionV2 :=
  if opts.yieldFailover && yieldDegraded (s.m.sharesAccepted - s.startAccepted)
      (s.m.sharesRejected - s.startRejected) then
    { s with ended := some .yieldDegraded }
  else s

/-- One turn of the loop. A loop that has returned does nothing more. -/
def SessionV2.step (opts : SessionOpts) (s : SessionV2) (input : Env × Event) :
    SessionV2 × List Effect :=
  if s.ended.isSome then (s, [])
  else
    match input.2 with
    | .ctxDone => ({ s with ended := some .ctxDone }, [])
    | .statsTick => (onStatsTick opts s, [])
    | .poolClosed => ({ s with ended := some .poolClosedConnection }, [])
    | .poolReadError => ({ s with ended := some .poolRead }, [])
    | .poolMsg msg => onPoolMsg opts input.1 s msg
    | .sharesClosed => ({ s with ended := some .ctxDone }, [])
    | .share sh => onShare opts input.1 s sh

/-- A frame on our own channel passes the guard. -/
theorem foreignFrame_own {opts : SessionOpts} {msg : Message}
    (h : channelIDOf msg = some opts.chanID) : foreignFrame opts msg = false := by
  simp [foreignFrame, h]

/-- A tip passes the guard whatever channel it is addressed to. -/
theorem foreignFrame_tip (opts : SessionOpts) (p : SetNewPrevHash) :
    foreignFrame opts (.setNewPrevHash p) = false := by
  simp [foreignFrame, channelIDOf, Message.isSetNewPrevHash]

/-- A session that has not ended hands a frame that passes the guard to its
handler. -/
theorem SessionV2.step_poolMsg {opts : SessionOpts} {s : SessionV2} (hlive : s.ended = none)
    (env : Env) {msg : Message} (hown : foreignFrame opts msg = false) :
    SessionV2.step opts s (env, .poolMsg msg) = handleMsg env s msg := by
  simp [SessionV2.step, hlive, onPoolMsg, hown]

/-- A session that has ended stays so. -/
theorem SessionV2.step_ended {opts : SessionOpts} {s : SessionV2} (hended : ¬ s.ended = none)
    (input : Env × Event) : ¬ (SessionV2.step opts s input).1.ended = none := by
  have hsome : s.ended.isSome = true := Option.isSome_iff_ne_none.mpr hended
  rw [SessionV2.step, if_pos hsome]
  exact hended

/-- The session loop as a machine. -/
def runSession (opts : SessionOpts) : Machine SessionV2 (Env × Event) Effect where
  step := SessionV2.step opts

/-! ## A small session

Frames and surroundings that the concrete runs of this development are
made of. -/

/-- A quiet turn: no curtailment, no pause, a token left, the send works. -/
def calmEnv : Env := { now := 0, curtailed := false, paused := [], token := true, sent := true }

def sampleOpts : SessionOpts := { chanID := 7, groupID := 3, yieldFailover := false }

/-- A future job on channel 7. -/
def sampleJob : NewMiningJob :=
  { channelID := 7, jobID := 1, hasNtimeStart := false, ntimeStart := 0,
    version := 0x20000000, merkleRoot := Bytes.zero32 }

/-- The tip that activates `sampleJob`. -/
def sampleTip : SetNewPrevHash :=
  { channelID := 7, jobID := 1, prevHash := Bytes.zero32, ntimeStart := 5, nBits := 0x1d00ffff }

/-- A share for `sampleJob`. -/
def sampleShare : Share :=
  { channelID := 7, jobID := 1, nonce := 0, nTime := 5, version := 0x20000000,
    hash := Bytes.zero32, target := Bytes.zero32, deviceID := "cpu0", extraNonce := [] }

/-- Counters of an engine that has just started. -/
def zeroMetrics : ShareMetrics :=
  { sharesFound := 0, sharesSubmitted := 0, sharesSubmitDropped := 0, sharesAccepted := 0,
    sharesRejected := 0, rejectReason := fun _ => 0 }

end Otedama.Engine
