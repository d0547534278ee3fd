import Otedama.Engine.SessionV2

/-! # Issuing work

`updateWork` turns a Stratum V2 job and the chain tip into a `miner.Work`
and publishes it to the workers. `Loop` is the session loop together
with the workers it drives: the calls that a turn of the loop makes are
carried out on the workers. -/

namespace Otedama.Engine

open Miner Stratum

/-! ## From jobs to work -/

/-- `uint32(time.Now().Unix())`. -/
def Env.unix (env : Env) : UInt32 := UInt32.ofNat (env.now / 10 ^ 9)

/-- A declared ntime that lies in the past is replaced by the wall clock; one
that lies in the future is kept. -/
def rollNTime (now declared : UInt32) : UInt32 :=
  if declared < now then now else declared

/-- The target to grind to: the pool's share target, or the block target
when the pool assigned none. -/
def workTarget (shareTarget : Hash) (prevNBits : UInt32) : Except TargetError Hash :=
  if shareTarget = Bytes.zero32 then targetFromNBits prevNBits else .ok shareTarget

/-- The work for `job` on top of `prevHash`, ground to `target`. -/
def newWork (chanID now : UInt32) (job : NewMiningJob) (prevHash : Bytes32)
    (prevNBits ntime : UInt32) (target : Hash) : Work where
  jobID := job.jobID
  channelID := chanID
  header :=
    { version := job.version
      prevHash := prevHash
      merkleRoot := job.merkleRoot
      time := rollNTime now ntime
      bits := prevNBits
      nonce := 0 }
  nBits := prevNBits
  target := target
  extraNonce := []

/-! ## Publishing work -/

section

variable {ω : Type}

/-- Publish `work` to every worker that arbitration has not paused. -/
def pushWork (paused : List String) (work : ω) (workers : List (Worker ω)) :
    List (Worker ω) :=
  workers.map fun w => if w.deviceID ∈ paused then w else w.setWork (some work)

/-- `SetWork(nil)` on every worker. -/
def idleAll (workers : List (Worker ω)) : List (Worker ω) :=
  workers.map fun w => w.setWork none

theorem mem_pushWork_nil {work : ω} {workers : List (Worker ω)} {w : Worker ω} :
    w ∈ pushWork [] work workers ↔ ∃ v ∈ workers, v.setWork (some work) = w := by
  simp [pushWork]

@[simp] theorem idleAll_work {workers : List (Worker ω)} {w : Worker ω}
    (h : w ∈ idleAll workers) : w.work = none := by
  obtain ⟨v, _, rfl⟩ := List.mem_map.mp h
  rfl

end

/-- Point every worker at the given job. When there is no share target and
`prevNBits` does not decode, the call returns without touching a worker. -/
def updateWork (paused : List String) (workers : List (Worker Work)) (chanID now : UInt32)
    (job : NewMiningJob) (prevHash : Bytes32) (prevNBits ntime : UInt32)
    (shareTarget : Hash) : List (Worker Work) :=
  match workTarget shareTarget prevNBits with
  | .ok target =>
      pushWork paused (newWork chanID now job prevHash prevNBits ntime target) workers
  | .error _ => workers

/-! ## The session loop and its workers -/

/-- A session loop and the workers it drives. -/
structure Loop where
  session : SessionV2
  workers : List (Worker Work)

/-- Carry out a call of the session loop on the workers. -/
def applyEffect (opts : SessionOpts) (env : Env) (workers : List (Worker Work)) :
    Effect → List (Worker Work)
  | .updateWork job prevHash prevNBits ntime shareTarget =>
      updateWork env.paused workers opts.chanID env.unix job prevHash prevNBits ntime shareTarget
  | .idleWorkers => idleAll workers
  | .recordLatency .. => workers
  | .submit _ => workers

/-- One turn of the loop, with its calls carried out. -/
def Loop.step (opts : SessionOpts) (l : Loop) (input : Env × Event) : Loop × List Effect :=
  let r := SessionV2.step opts l.session input
  ({ session := r.1, workers := r.2.foldl (applyEffect opts input.1) l.workers }, r.2)

/-- The session loop with its workers as a machine. -/
def sessionLoop (opts : SessionOpts) : Machine Loop (Env × Event) Effect where
  step := Loop.step opts

/-- A session that starts on the given workers. -/
def Loop.start (shareTarget : Hash) (m : ShareMetrics) (workers : List (Worker Work)) : Loop where
  session := SessionV2.start shareTarget m
  workers := workers

/-- Two idle devices. -/
def sampleWorkers : List (Worker Work) :=
  [{ deviceID := "cpu0", work := none, workVer := 0 },
   { deviceID := "gpu0", work := none, workVer := 0 }]

end Otedama.Engine
