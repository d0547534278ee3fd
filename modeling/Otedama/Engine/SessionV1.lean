import Otedama.Engine.Work
import Otedama.Poolproto.Job

/-! # The Stratum V1 session loop

`runSessionV1` after a successful dial. The pool session delivers jobs
and difficulties on two independent channels; a job is ground to the
difficulty that is current when the loop takes it, and a later
difficulty re-issues the last applied job.

Submits run in goroutines of their own, which may answer long after; an
answer is an event (`verdict`) here. Notices, gauges, log lines and the
payout check, which only warns, are not modelled. -/

namespace Otedama.Engine

open Miner Poolproto

/-! ## From jobs to work -/

/-- The value of a string of decimal digits. -/
def decimalValue (digits : List UInt8) : Nat :=
  digits.foldl (fun n c => 10 * n + (c.toNat - 0x30)) 0

/-- `strconv.ParseUint(s, 10, 32)`. -/
def parseUint32 (s : GoString) : Option UInt32 :=
  if s ≠ [] ∧ s.all (fun c => 0x30 ≤ c && c ≤ 0x39) ∧ decimalValue s < 2 ^ 32 then
    some (UInt32.ofNat (decimalValue s))
  else none

/-- The 32-bit FNV-1a hash. -/
def fnv32a (bytes : List UInt8) : UInt32 :=
  bytes.foldl (fun h b => (h ^^^ b.toUInt32) * 16777619) 2166136261

/-- The internal job identifier: a decimal keeps its value, anything else is
hashed. -/
def v1JobWireID (jobID : GoString) : UInt32 :=
  match parseUint32 jobID with
  | some n => n
  | none => fnv32a jobID

/-- The target of a Stratum V1 job: that of the pool's difficulty, or the
block target before the pool has set one. Both must be computable. -/
def v1JobTarget (nBits : UInt32) (difficulty : ℚ) : Except TargetError Hash :=
  match targetFromNBits nBits with
  | .error err => .error err
  | .ok target => if 0 < difficulty then targetFromDifficulty difficulty else .ok target

/-- The share target of the pool's latest difficulty, if there is one. -/
def v1ShareTarget (difficulty : ℚ) : Option Hash :=
  if difficulty ≤ 0 then none
  else
    match targetFromDifficulty difficulty with
    | .ok target => some target
    | .error _ => none

/-- The work for `job`. Stratum V1 has a single channel, with id 0. -/
def newWorkV1 (now : UInt32) (job : Job) (target : Hash) : Work where
  jobID := v1JobWireID job.jobID
  channelID := 0
  header :=
    { version := job.version
      prevHash := job.prevHash
      merkleRoot := job.merkleRoot
      time := rollNTime now job.nTime
      bits := job.nBits
      nonce := 0 }
  nBits := job.nBits
  target := target
  extraNonce := job.extraNonce

/-- The work that `applyJob` pushes to the workers, or its error. -/
def applyJob (now : UInt32) (job : Job) (difficulty : ℚ) : Except TargetError Work :=
  match v1JobTarget job.nBits difficulty with
  | .error err => .error err
  | .ok target => .ok (newWorkV1 now job target)

/-! ## State, inputs and outputs -/

/-- The error a session ends with. -/
inductive SessionEndV1 where
  | ctxDone
  | poolClosedConnection
  | yieldDegraded
  deriving DecidableEq, Repr

/-- The local variables of the loop, and the counters shared with the submit
goroutines. -/
structure SessionV1 where
  currentJobID : UInt32
  currentJobIDStr : GoString
  haveJob : Bool
  lastJob : Job
  appliedDifficulty : ℚ
  sessAccepted : Nat
  sessRejected : Nat
  m : ShareMetrics
  ended : Option SessionEndV1

/-- The loop's variables at the start. -/
def SessionV1.start (m : ShareMetrics) : SessionV1 where
  currentJobID := 0
  currentJobIDStr := []
  haveJob := false
  lastJob := Job.zero
  appliedDifficulty := 0
  sessAccepted := 0
  sessRejected := 0
  m := m
  ended := none

/-- How a submit goroutine ends. -/
inductive Verdict where
  | failed
  | accepted
  /-- The pool's reason, the target the share was ground to, and the
      difficulty that is current when the answer arrives. -/
  | rejected (reason : GoString) (target : Hash) (suggested : ℚ)
  deriving DecidableEq, Repr

/-- The channels the loop selects on, and the answers to submits. -/
inductive EventV1 where
  | ctxDone
  | statsTick
  | jobsClosed
  /-- A job, and the difficulty that `SuggestedDifficulty` returns for it. -/
  | job (job : Job) (suggested : ℚ)
  | difficulty (d : ℚ)
  | sharesClosed
  | share (sh : Share)
  | verdict (v : Verdict)
  deriving DecidableEq, Repr

/-- Calls made on other components. -/
inductive EffectV1 where
  /-- `applyJob` succeeded: `work` is pushed to the workers. -/
  | pushWork (job : Job) (work : Work)
  | submit (sub : ShareSubmission)
  deriving DecidableEq, Repr

/-! ## The arms of the loop -/

def onJobV1 (env : Env) (s : SessionV1) (job : Job) (suggested : ℚ) :
    SessionV1 × List EffectV1 :=
  -- While curtailed the job is ignored altogether.
  if env.curtailed then (s, [])
  else
    match applyJob env.unix job suggested with
    | .error _ => (s, [])  -- logged; the previous job stays current
    | .ok work =>
      ({ s with
         lastJob := job
         appliedDifficulty := suggested
         currentJobID := v1JobWireID job.jobID
         currentJobIDStr := job.jobID
         haveJob := true }, [.pushWork job work])

def onDifficultyV1 (env : Env) (s : SessionV1) (d : ℚ) : SessionV1 × List EffectV1 :=
  if !s.haveJob || env.curtailed || d == s.appliedDifficulty then (s, [])
  else
    -- The difficulty is noted even if no target can be computed from it.
    let s := { s with appliedDifficulty := d }
    match applyJob env.unix s.lastJob d with
    | .error _ => (s, [])
    | .ok work => (s, [.pushWork s.lastJob work])

def onShareV1 (env : Env) (s : SessionV1) (sh : Share) : SessionV1 × List EffectV1 :=
  let s := { s with m := { s.m with sharesFound := s.m.sharesFound + 1 } }
  if !s.haveJob || sh.jobID != s.currentJobID || !env.token then
    ({ s with m := { s.m with sharesSubmitDropped := s.m.sharesSubmitDropped + 1 } }, [])
  else
    ({ s with m := { s.m with sharesSubmitted := s.m.sharesSubmitted + 1 } },
     -- The pool is told the current job's name, not that of the share's job.
     [.submit { jobID := s.currentJobIDStr, nonce := sh.nonce, nTime := sh.nTime,
                extraNonce := sh.extraNonce }])

def onVerdictV1 (s : SessionV1) : Verdict → SessionV1
  | .failed => s
  | .accepted =>
      { s with
        sessAccepted := s.sessAccepted + 1
        m := { s.m with sharesAccepted := s.m.sharesAccepted + 1 } }
  | .rejected reason target suggested =>
      let category := rejectClass (sanitizePoolText reason)
      -- Without a current target the reject takes the ordinary path.
      let transition := (v1ShareTarget suggested).any (transitionReject category target)
      { s with
        sessRejected := if transition then s.sessRejected else s.sessRejected + 1
        m := s.m.countReject transition category }

/-- The part of a stats tick that can end the session. -/
def onStatsTickV1 (yieldFailover : Bool) (s : SessionV1) : SessionV1 :=
  if yieldFailover && yieldDegraded s.sessAccepted s.sessRejected then
    { s with ended := some .yieldDegraded }
  else s

/-! ## The loop -/

/-- One turn of the loop. A loop that has returned does nothing more. -/
def SessionV1.step (yieldFailover : Bool) (s : SessionV1) (input : Env × EventV1) :
    SessionV1 × List EffectV1 :=
  if s.ended.isSome then (s, [])
  else
    match input.2 with
    | .ctxDone => ({ s with ended := some .ctxDone }, [])
    | .statsTick => (onStatsTickV1 yieldFailover s, [])
    | .jobsClosed => ({ s with ended := some .poolClosedConnection }, [])
    | .job job suggested => onJobV1 input.1 s job suggested
    | .difficulty d => onDifficultyV1 input.1 s d
    | .sharesClosed => ({ s with ended := some .ctxDone }, [])
    | .share sh => onShareV1 input.1 s sh
    | .verdict v => (onVerdictV1 s v, [])

/-- A session that has ended stays so. -/
theorem SessionV1.step_ended {yieldFailover : Bool} {s : SessionV1} (hended : ¬ s.ended = none)
    (input : Env × EventV1) : ¬ (SessionV1.step yieldFailover s input).1.ended = none := by
  have hsome : s.ended.isSome = true := Option.isSome_iff_ne_none.mpr hended
  rw [SessionV1.step, if_pos hsome]
  exact hended

/-- The session loop as a machine. -/
def runSessionV1 (yieldFailover : Bool) : Machine SessionV1 (Env × EventV1) EffectV1 where
  step := SessionV1.step yieldFailover

/-! ## What a turn does -/

section

variable {yieldFailover : Bool} {s : SessionV1} {e : Env × EventV1}

theorem applyJob_eq_ok {now : UInt32} {job : Job} {difficulty : ℚ} {work : Work}
    (h : applyJob now job difficulty = .ok work) :
    ∃ target, v1JobTarget job.nBits difficulty = .ok target ∧ work = newWorkV1 now job target := by
  cases htarget : v1JobTarget job.nBits difficulty with
  | error err =>
    simp only [applyJob, htarget] at h
    cases h
  | ok target =>
    simp only [applyJob, htarget, Except.ok.injEq] at h
    exact ⟨target, rfl, h.symm⟩

/-- The variables after `job` was applied at `difficulty`. -/
def SessionV1.applied (s : SessionV1) (job : Job) (difficulty : ℚ) : SessionV1 :=
  { s with
    lastJob := job
    appliedDifficulty := difficulty
    currentJobID := v1JobWireID job.jobID
    currentJobIDStr := job.jobID
    haveJob := true }

/-- A difficulty update takes effect: the last applied job is re-issued. -/
structure Retargets (s : SessionV1) (env : Env) (d : ℚ) : Prop where
  live : s.ended = none
  haveJob : s.haveJob = true
  running : env.curtailed = false
  changed : d ≠ s.appliedDifficulty
  usable : ∃ work, applyJob env.unix s.lastJob d = .ok work

/-- A job is applied or ignored. -/
theorem onJobV1_cases (env : Env) (s : SessionV1) (job : Job) (d : ℚ) :
    (∃ work, env.curtailed = false ∧ applyJob env.unix job d = .ok work ∧
      onJobV1 env s job d = (s.applied job d, [.pushWork job work])) ∨
    ((env.curtailed = true ∨ ∃ err, applyJob env.unix job d = .error err) ∧
      onJobV1 env s job d = (s, [])) := by
  unfold onJobV1
  by_cases hcurtailed : env.curtailed = true
  · rw [if_pos hcurtailed]
    exact .inr ⟨.inl hcurtailed, rfl⟩
  · rw [if_neg hcurtailed]
    cases happly : applyJob env.unix job d with
    | error err => exact .inr ⟨.inr ⟨err, rfl⟩, rfl⟩
    | ok work => exact .inl ⟨work, by simpa using hcurtailed, rfl, rfl⟩

/-- A difficulty update re-issues the last job or pushes nothing. -/
theorem onDifficultyV1_cases (env : Env) (s : SessionV1) (hlive : s.ended = none) (d : ℚ) :
    (∃ work, Retargets s env d ∧ applyJob env.unix s.lastJob d = .ok work ∧
      onDifficultyV1 env s d = ({ s with appliedDifficulty := d }, [.pushWork s.lastJob work])) ∨
    ∃ d', onDifficultyV1 env s d = ({ s with appliedDifficulty := d' }, []) := by
  unfold onDifficultyV1
  split
  · exact .inr ⟨s.appliedDifficulty, rfl⟩
  · next hguard =>
    obtain ⟨hjob, hrunning, hchanged⟩ :
        s.haveJob = true ∧ env.curtailed = false ∧ d ≠ s.appliedDifficulty := by
      simpa [and_assoc] using hguard
    cases happly : applyJob env.unix s.lastJob d with
    | error err => exact .inr ⟨d, by simp only [happly]⟩
    | ok work =>
      refine .inl ⟨work, ⟨hlive, hjob, hrunning, hchanged, work, happly⟩, rfl, ?_⟩
      simp only [happly]

/-- A share goes out under the name of the current job, if it bears its
identifier; otherwise it is only counted. -/
theorem onShareV1_cases (env : Env) (s : SessionV1) (sh : Share) :
    (s.haveJob = true ∧ sh.jobID = s.currentJobID ∧ ∃ m, onShareV1 env s sh =
      ({ s with m := m },
       [.submit { jobID := s.currentJobIDStr, nonce := sh.nonce, nTime := sh.nTime,
                  extraNonce := sh.extraNonce }])) ∨
    ∃ m, onShareV1 env s sh = ({ s with m := m }, []) := by
  unfold onShareV1
  dsimp only
  split
  · exact .inr ⟨_, rfl⟩
  · next hguard =>
    obtain ⟨hjob, hid, -⟩ : s.haveJob = true ∧ sh.jobID = s.currentJobID ∧ env.token = true := by
      simpa [and_assoc] using hguard
    exact .inl ⟨hjob, hid, _, rfl⟩

/-- What a turn does to the job variables, and what it calls. -/
inductive TurnV1 (s : SessionV1) (env : Env) : EventV1 → SessionV1 × List EffectV1 → Prop where
  | applied {job : Job} {d : ℚ} {work : Work} (hrunning : env.curtailed = false)
      (happly : applyJob env.unix job d = .ok work) :
      TurnV1 s env (.job job d) (s.applied job d, [.pushWork job work])
  | retargeted {d : ℚ} {work : Work} (hretargets : Retargets s env d)
      (happly : applyJob env.unix s.lastJob d = .ok work) :
      TurnV1 s env (.difficulty d)
        ({ s with appliedDifficulty := d }, [.pushWork s.lastJob work])
  | submitted {sh : Share} {m : ShareMetrics} (hjob : s.haveJob = true)
      (hid : sh.jobID = s.currentJobID) :
      TurnV1 s env (.share sh)
        ({ s with m := m },
         [.submit { jobID := s.currentJobIDStr, nonce := sh.nonce, nTime := sh.nTime,
                    extraNonce := sh.extraNonce }])
  | quiet {ev : EventV1} {s' : SessionV1} (hjob : s'.haveJob = s.haveJob)
      (hlast : s'.lastJob = s.lastJob) (hid : s'.currentJobID = s.currentJobID)
      (hstr : s'.currentJobIDStr = s.currentJobIDStr)
      (hpassed : ∀ job d, ev = .job job d →
        env.curtailed = true ∨ ∃ err, applyJob env.unix job d = .error err) :
      TurnV1 s env ev (s', [])

/-- Every turn of a live session is one of these. -/
theorem SessionV1.step_turn (yieldFailover : Bool) {s : SessionV1} (hlive : s.ended = none)
    (env : Env) (ev : EventV1) : TurnV1 s env ev (SessionV1.step yieldFailover s (env, ev)) := by
  have hnot : ¬ s.ended.isSome = true := by simp [hlive]
  rw [SessionV1.step, if_neg hnot]
  cases ev with
  | job job d =>
    show TurnV1 s env _ (onJobV1 env s job d)
    rcases onJobV1_cases env s job d with ⟨work, hrunning, happly, heq⟩ | ⟨hpassed, heq⟩
    · rw [heq]
      exact .applied hrunning happly
    · rw [heq]
      refine .quiet rfl rfl rfl rfl ?_
      rintro _ _ ⟨⟩
      exact hpassed
  | difficulty d =>
    show TurnV1 s env _ (onDifficultyV1 env s d)
    rcases onDifficultyV1_cases env s hlive d with ⟨work, hretargets, happly, heq⟩ | ⟨d', heq⟩
    · rw [heq]
      exact .retargeted hretargets happly
    · rw [heq]
      exact .quiet rfl rfl rfl rfl (fun _ _ h => EventV1.noConfusion h)
  | share sh =>
    show TurnV1 s env _ (onShareV1 env s sh)
    rcases onShareV1_cases env s sh with ⟨hjob, hid, m, heq⟩ | ⟨m, heq⟩
    · rw [heq]
      exact .submitted hjob hid
    · rw [heq]
      exact .quiet rfl rfl rfl rfl (fun _ _ h => EventV1.noConfusion h)
  | statsTick =>
    show TurnV1 s env _ (onStatsTickV1 yieldFailover s, [])
    unfold onStatsTickV1
    split <;> exact .quiet rfl rfl rfl rfl (fun _ _ h => EventV1.noConfusion h)
  | verdict v =>
    cases v <;> exact .quiet rfl rfl rfl rfl (fun _ _ h => EventV1.noConfusion h)
  | _ => exact .quiet rfl rfl rfl rfl (fun _ _ h => EventV1.noConfusion h)

end

/-! ## Sample jobs

Jobs that the concrete runs of this development are made of. -/

/-- A job with the given id and an otherwise empty template. -/
def sampleJobV1 (jobID : GoString) (merkleRoot : Bytes32) : Job :=
  { Job.zero with jobID := jobID, merkleRoot := merkleRoot, nBits := 0x1d00ffff }

theorem applyJob_sampleJobV1_zero (now : UInt32) (jobID : GoString) (merkleRoot : Bytes32) :
    applyJob now (sampleJobV1 jobID merkleRoot) 0 =
      .ok (newWorkV1 now (sampleJobV1 jobID merkleRoot) (Bytes.le256 diff1Target)) := by
  have htarget : v1JobTarget 0x1d00ffff 0 = .ok (Bytes.le256 diff1Target) := by
    simp [v1JobTarget, targetFromNBits_diff1]
  simp only [applyJob, sampleJobV1, htarget]

theorem applyJob_sampleJobV1_one (now : UInt32) (jobID : GoString) (merkleRoot : Bytes32) :
    applyJob now (sampleJobV1 jobID merkleRoot) 1 =
      .ok (newWorkV1 now (sampleJobV1 jobID merkleRoot) (Bytes.le256 diff1Target)) := by
  simp [applyJob, sampleJobV1, v1JobTarget, targetFromNBits_diff1, targetFromDifficulty_one]

end Otedama.Engine
