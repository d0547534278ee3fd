import Otedama.Engine.ShareContentV1
import Otedama.Framework.Mailbox

/-! # Retargeting a Stratum V1 session

The pool's read loop and the engine's session loop run side by side. On
`mining.set_difficulty` the read loop stores the value and then announces
it through a one-slot channel; on `mining.notify` it queues a job. The
session loop takes jobs and difficulties in any order. A job is ground
to the stored difficulty; a difficulty that was announced is applied to
the last job, unless the loop believes that it is in force already.

So the stored value, the announced one and the one in force can differ
for a while. They agree again as soon as nothing is under way. -/

namespace Otedama.Engine

open Miner Poolproto Option

/-! ## The two loops -/

/-- The read loop of a Stratum V1 session and the engine loop it feeds. -/
structure Link where
  state : V1State
  /-- `session.difficulty`; 0 before the pool has sent one. -/
  difficulty : ℚ
  diffCh : Mailbox ℚ
  jobsCh : List Job
  loop : SessionV1
  workers : List (Worker Work)
  /-- The last difficulty the pool sent. -/
  sent : Option ℚ

/-- A session right after the handshake. -/
def Link.start (state : V1State) (m : ShareMetrics) (workers : List (Worker Work)) : Link where
  state := state
  difficulty := 0
  diffCh := Mailbox.empty
  jobsCh := []
  loop := SessionV1.start m
  workers := workers
  sent := none

inductive LinkMove where
  /-- The read loop dispatches a message of the pool. -/
  | notify (params : Json)
  | setExtranonce (params : Json)
  | setDifficulty (params : Json)
  /-- The read loop goes on with replacing the content of the channel. -/
  | replace
  /-- The engine loop receives a job. -/
  | takeJob (env : Env)
  /-- The engine loop receives a difficulty. -/
  | takeDifficulty (env : Env)

/-- Carry out a call of the engine loop on the workers. -/
def applyEffectV1 (env : Env) (workers : List (Worker Work)) : EffectV1 → List (Worker Work)
  | .pushWork _ work => pushWork env.paused work workers
  | .submit _ => workers

/-- A turn of the engine loop, with its calls carried out. -/
def Link.turn (yieldFailover : Bool) (link : Link) (env : Env) (e : EventV1) : Link :=
  let r := SessionV1.step yieldFailover link.loop (env, e)
  { link with loop := r.1, workers := r.2.foldl (applyEffectV1 env) link.workers }

section

variable (sha256 : List UInt8 → Bytes32) (yieldFailover : Bool)

def Link.next (link : Link) : LinkMove → Option Link
  | .notify params =>
      -- The read loop handles one message at a time.
      if link.diffCh.writer = .idle then
        let r := handleNotify sha256 link.state params
        some { link with
          state := r.1
          jobsCh := r.2.elim link.jobsCh (sendJob link.jobsCh) }
      else none
  | .setExtranonce params =>
      if link.diffCh.writer = .idle then
        some { link with state := handleSetExtranonce link.state params }
      else none
  | .setDifficulty params =>
      if link.diffCh.writer = .idle then
        match parseDifficulty params with
        | none => some link
        | some d =>
            -- The value is stored before the channel is touched.
            some { link with difficulty := d, diffCh := link.diffCh.post d, sent := some d }
      else none
  | .replace => link.diffCh.next.map fun diffCh => { link with diffCh := diffCh }
  | .takeJob env =>
      match link.jobsCh with
      | [] => none
      | job :: jobsCh =>
          some ({ link with jobsCh := jobsCh }.turn yieldFailover env (.job job link.difficulty))
  | .takeDifficulty env =>
      match link.diffCh.take with
      | none => none
      | some (d, diffCh) =>
          some ({ link with diffCh := diffCh }.turn yieldFailover env (.difficulty d))

/-- The two loops as a labelled step system. -/
def v1Link : LTS Link LinkMove where
  next := Link.next sha256 yieldFailover

end

/-! ## Ordinary runs -/

/-- The job's `nBits` decode. -/
def ValidBits (job : Job) : Prop := ∃ target, targetFromNBits job.nBits = .ok target

/-- The difficulty has a share target. -/
def Convertible (d : ℚ) : Prop := ∃ target, targetFromDifficulty d = .ok target

/-- What is assumed of a run: the pool's difficulties can be converted and its
`nBits` are valid, arbitration pauses nothing, and the price gate stays
down. -/
def Ordinary (_ : Link) : LinkMove → Prop
  | .notify params => ∀ job, parseNotify params = .ok job → ValidBits job
  | .setDifficulty params => ∀ d, parseDifficulty params = some d → Convertible d
  | .takeJob env => env.curtailed = false ∧ env.paused = []
  | .takeDifficulty env => env.curtailed = false ∧ env.paused = []
  | _ => True

theorem Convertible.pos {d : ℚ} (h : Convertible d) : 0 < d := by
  obtain ⟨target, htarget⟩ := h
  by_contra hnot
  simp [targetFromDifficulty, hnot] at htarget

/-- A job with valid `nBits` can be applied before the pool has sent a
difficulty and at every convertible one. -/
theorem applyJob_ok {job : Job} (hbits : ValidBits job) {d : ℚ} (hd : d = 0 ∨ Convertible d)
    (now : UInt32) : ∃ work, applyJob now job d = .ok work ∧
      v1JobTarget job.nBits d = .ok work.target := by
  obtain ⟨block, hblock⟩ := hbits
  obtain ⟨target, htarget⟩ : ∃ target, v1JobTarget job.nBits d = .ok target := by
    rcases hd with rfl | hd
    · exact ⟨block, by simp [v1JobTarget, hblock]⟩
    · obtain ⟨share, hshare⟩ := hd
      exact ⟨share, by simp [v1JobTarget, hblock, Convertible.pos ⟨share, hshare⟩, hshare]⟩
  refine ⟨newWorkV1 now job target, ?_, htarget⟩
  simp [applyJob, htarget]

theorem completeV1Job_nBits (sha256 : List UInt8 → Bytes32) (s : V1State) (j : Job) :
    (completeV1Job sha256 s j).2.nBits = j.nBits := by
  unfold completeV1Job completeV1JobWith
  split
  · rfl
  · split
    · rfl
    · split <;> rfl

/-- What `handleNotify` hands on has valid `nBits`. -/
theorem handleNotify_validBits {sha256 : List UInt8 → Bytes32} {s : V1State} {params : Json}
    (hvalid : ∀ job, parseNotify params = .ok job → ValidBits job) {job : Job}
    (h : (handleNotify sha256 s params).2 = some job) : ValidBits job := by
  unfold handleNotify at h
  split at h
  · cases h
  · next parsed hparsed =>
    obtain rfl := some.inj h
    unfold ValidBits
    rw [completeV1Job_nBits]
    exact hvalid parsed hparsed

/-! ## The invariant -/

/-- All workers grind the last job to the target of the difficulty that the
loop regards as in force. -/
def OnTarget (loop : SessionV1) (workers : List (Worker Work)) : Prop :=
  ∀ w ∈ workers, ∃ work, w.work = some work ∧
    v1JobTarget loop.lastJob.nBits loop.appliedDifficulty = .ok work.target

structure Link.Inv (link : Link) : Prop where
  live : link.loop.ended = none
  holds : link.diffCh.Holds link.difficulty
  stored : link.difficulty = link.sent.getD 0
  sent : ∀ d, link.sent = some d → Convertible d
  slot : ∀ d, link.diffCh.slot = some d → d = 0 ∨ Convertible d
  jobs : ∀ job ∈ link.jobsCh, ValidBits job
  lastJob : link.loop.haveJob = true → ValidBits link.loop.lastJob
  settled : link.loop.haveJob = true →
    Mailbox.Settled link.difficulty link.loop.appliedDifficulty link.diffCh
  onTarget : link.loop.haveJob = true → OnTarget link.loop link.workers

section

variable {link link' : Link} {sha256 : List UInt8 → Bytes32} {yieldFailover : Bool} {env : Env}

theorem Link.Inv.start (state : V1State) (m : ShareMetrics) (workers : List (Worker Work)) :
    (Link.start state m workers).Inv where
  live := rfl
  holds := Mailbox.Holds.empty
  stored := rfl
  sent := by
    intro d h
    cases h
  slot := by
    intro d h
    cases h
  jobs := by
    intro job h
    cases h
  lastJob := by
    intro h
    cases h
  settled := by
    intro h
    cases h
  onTarget := by
    intro h
    cases h

/-- The stored difficulty is 0 or convertible. -/
theorem Link.Inv.difficulty_ok (hinv : link.Inv) :
    link.difficulty = 0 ∨ Convertible link.difficulty := by
  rw [hinv.stored]
  cases hsent : link.sent with
  | none => exact .inl rfl
  | some d => exact .inr (hinv.sent d hsent)

theorem onTarget_push {loop : SessionV1} {work : Work} (workers : List (Worker Work))
    (htarget : v1JobTarget loop.lastJob.nBits loop.appliedDifficulty = .ok work.target) :
    OnTarget loop (pushWork [] work workers) := by
  intro w hw
  obtain ⟨v, -, rfl⟩ := mem_pushWork_nil.mp hw
  exact ⟨work, rfl, htarget⟩

/-- The job arm: the job is applied at the stored difficulty. -/
theorem Link.turn_job (link : Link) (yieldFailover : Bool) (env : Env)
    (hlive : link.loop.ended = none) {job : Job} {d : ℚ} (hbits : ValidBits job)
    (hd : d = 0 ∨ Convertible d) (hrunning : env.curtailed = false)
    (hpaused : env.paused = []) :
    ∃ work, v1JobTarget job.nBits d = .ok work.target ∧
      link.turn yieldFailover env (.job job d) =
        { link with loop := link.loop.applied job d, workers := pushWork [] work link.workers } := by
  obtain ⟨work, happly, htarget⟩ := applyJob_ok hbits hd env.unix
  refine ⟨work, htarget, ?_⟩
  simp [Link.turn, SessionV1.step, hlive, onJobV1, hrunning, happly, applyEffectV1, hpaused,
    SessionV1.applied]

/-- The difficulty arm: without a job, or when the difficulty is in force
already, nothing changes; otherwise the last job is issued again. -/
theorem Link.turn_difficulty (link : Link) (yieldFailover : Bool)
    (hlive : link.loop.ended = none) {d : ℚ} (hd : d = 0 ∨ Convertible d)
    (hbits : link.loop.haveJob = true → ValidBits link.loop.lastJob)
    (hrunning : env.curtailed = false) (hpaused : env.paused = []) :
    (link.turn yieldFailover env (.difficulty d) = link ∧
      (link.loop.haveJob = true → d = link.loop.appliedDifficulty)) ∨
    (link.loop.haveJob = true ∧ ∃ work,
      v1JobTarget link.loop.lastJob.nBits d = .ok work.target ∧
      link.turn yieldFailover env (.difficulty d) =
        { link with
          loop := { link.loop with appliedDifficulty := d }
          workers := pushWork [] work link.workers }) := by
  by_cases hjob : link.loop.haveJob = true
  · by_cases hsame : d = link.loop.appliedDifficulty
    · left
      refine ⟨?_, fun _ => hsame⟩
      simp [Link.turn, SessionV1.step, hlive, onDifficultyV1, hjob, hrunning, hsame]
    · right
      obtain ⟨work, happly, htarget⟩ := applyJob_ok (hbits hjob) hd env.unix
      refine ⟨hjob, work, htarget, ?_⟩
      simp [Link.turn, SessionV1.step, hlive, onDifficultyV1, hjob, hrunning, hsame, happly,
        applyEffectV1, hpaused]
  · left
    refine ⟨?_, fun h => absurd h hjob⟩
    simp [Link.turn, SessionV1.step, hlive, onDifficultyV1, hjob]

/-! ### One step -/

theorem Link.Inv.takeJob (hinv : link.Inv) {job : Job} {jobsCh : List Job}
    (hjobs : link.jobsCh = job :: jobsCh) (hrunning : env.curtailed = false)
    (hpaused : env.paused = []) :
    ({ link with jobsCh := jobsCh }.turn yieldFailover env (.job job link.difficulty)).Inv := by
  have hbits : ValidBits job := hinv.jobs job (by simp [hjobs])
  obtain ⟨work, htarget, hturn⟩ := Link.turn_job { link with jobsCh := jobsCh } yieldFailover env
    hinv.live hbits hinv.difficulty_ok hrunning hpaused
  rw [hturn]
  refine ⟨hinv.live, hinv.holds, hinv.stored, hinv.sent, hinv.slot, ?_, fun _ => hbits, ?_, ?_⟩
  · intro j hj
    exact hinv.jobs j (by simp [hjobs, hj])
  · intro _
    exact Mailbox.Settled.refresh _
  · intro _
    exact onTarget_push link.workers htarget

theorem Link.Inv.takeDifficulty (hinv : link.Inv) {d : ℚ} {diffCh : Mailbox ℚ}
    (htake : link.diffCh.take = some (d, diffCh)) (hrunning : env.curtailed = false)
    (hpaused : env.paused = []) :
    ({ link with diffCh := diffCh }.turn yieldFailover env (.difficulty d)).Inv := by
  obtain ⟨hholds, hslot, hslot', -⟩ := hinv.holds.take htake
  have hsettled : Mailbox.Settled link.difficulty d diffCh := Mailbox.Settled.take hinv.holds htake
  have hempty : ∀ x, diffCh.slot = some x → x = 0 ∨ Convertible x := by
    intro x hx
    rw [hslot'] at hx
    cases hx
  rcases Link.turn_difficulty { link with diffCh := diffCh } yieldFailover hinv.live
    (hinv.slot d hslot) hinv.lastJob hrunning hpaused with ⟨hturn, hsame⟩ | ⟨hjob, work, htarget, hturn⟩
  · rw [hturn]
    refine ⟨hinv.live, hholds, hinv.stored, hinv.sent, hempty, hinv.jobs, hinv.lastJob, ?_,
      hinv.onTarget⟩
    intro hjob
    -- What was taken is what is in force.
    have heq : d = link.loop.appliedDifficulty := hsame hjob
    show Mailbox.Settled link.difficulty link.loop.appliedDifficulty diffCh
    rw [← heq]
    exact hsettled
  · rw [hturn]
    refine ⟨hinv.live, hholds, hinv.stored, hinv.sent, hempty, hinv.jobs, hinv.lastJob, ?_, ?_⟩
    · intro _
      exact hsettled
    · intro _
      exact onTarget_push link.workers htarget

theorem Link.Inv.notify (hinv : link.Inv) {params : Json} (hord : Ordinary link (.notify params))
    (h : link.next sha256 yieldFailover (.notify params) = some link') : link'.Inv := by
  simp only [Link.next] at h
  split at h
  · obtain rfl := some.inj h
    refine ⟨hinv.live, hinv.holds, hinv.stored, hinv.sent, hinv.slot, ?_, hinv.lastJob,
      hinv.settled, hinv.onTarget⟩
    intro j hj
    cases hjob : (handleNotify sha256 link.state params).2 with
    | none =>
      simp only [hjob, elim_none] at hj
      exact hinv.jobs j hj
    | some job =>
      simp only [hjob, elim_some] at hj
      rcases mem_sendJob hj with hold | rfl
      · exact hinv.jobs j hold
      · exact handleNotify_validBits hord hjob
  · cases h

theorem Link.Inv.setDifficulty (hinv : link.Inv) {params : Json}
    (hord : Ordinary link (.setDifficulty params))
    (h : link.next sha256 yieldFailover (.setDifficulty params) = some link') : link'.Inv := by
  simp only [Link.next] at h
  split at h
  · cases hparse : parseDifficulty params with
    | none =>
      simp only [hparse, some.injEq] at h
      subst h
      exact hinv
    | some d =>
      simp only [hparse, some.injEq] at h
      subst h
      have hd : Convertible d := hord d hparse
      refine ⟨hinv.live, Mailbox.Holds.post _ d, rfl, ?_, hinv.slot, hinv.jobs, hinv.lastJob,
        fun _ => Mailbox.Settled.post _ d, hinv.onTarget⟩
      intro x hx
      obtain rfl : d = x := some.inj hx
      exact hd
  · cases h

/-- Every ordinary step keeps the invariant. -/
theorem Link.Inv.next (hinv : link.Inv) {move : LinkMove} (hord : Ordinary link move)
    (h : link.next sha256 yieldFailover move = some link') : link'.Inv := by
  cases move with
  | notify params => exact hinv.notify hord h
  | setExtranonce params =>
    simp only [Link.next] at h
    split at h
    · obtain rfl := some.inj h
      exact ⟨hinv.live, hinv.holds, hinv.stored, hinv.sent, hinv.slot, hinv.jobs, hinv.lastJob,
        hinv.settled, hinv.onTarget⟩
    · cases h
  | setDifficulty params => exact hinv.setDifficulty hord h
  | replace =>
    simp only [Link.next] at h
    obtain ⟨diffCh, hnext, rfl⟩ := map_eq_some_iff.mp h
    have hholds := (hinv.holds.next hnext).1
    refine ⟨hinv.live, hholds, hinv.stored, hinv.sent, ?_, hinv.jobs, hinv.lastJob,
      fun _ => Mailbox.Settled.next hinv.holds hnext, hinv.onTarget⟩
    intro x hx
    rcases hinv.holds.slot_next hnext hx with hold | rfl
    · exact hinv.slot x hold
    · exact hinv.difficulty_ok
  | takeJob env =>
    simp only [Link.next] at h
    split at h
    · cases h
    · next job jobsCh hjobs =>
      obtain rfl := some.inj h
      exact hinv.takeJob hjobs hord.1 hord.2
  | takeDifficulty env =>
    simp only [Link.next] at h
    split at h
    · cases h
    · next d diffCh htake =>
      obtain rfl := some.inj h
      exact hinv.takeDifficulty htake hord.1 hord.2

end

/-! ## Convergence -/

/-- Nothing is under way: the read loop is idle and both channels are empty. -/
structure Link.Quiescent (link : Link) : Prop where
  reader : link.diffCh.writer = .idle
  jobsCh : link.jobsCh = []
  diffCh : link.diffCh.slot = none

/-- **Retarget convergence.**  In every ordinary run, whatever order the
engine loop took jobs and difficulties in: in every quiescent state in
which a job has been applied and the pool has sent a difficulty, all
workers grind to the target of the last difficulty that the pool sent. -/
theorem v1_retarget_converges (sha256 : List UInt8 → Bytes32) (yieldFailover : Bool)
    (state : V1State) (m : ShareMetrics) (workers : List (Worker Work)) (link : Link)
    (hreach : (v1Link sha256 yieldFailover).Reach Ordinary (Link.start state m workers) link)
    (hquiet : link.Quiescent) (hjob : link.loop.haveJob = true) (d : ℚ)
    (hsent : link.sent = some d) :
    ∀ w ∈ link.workers, ∃ work, w.work = some work ∧
      targetFromDifficulty d = .ok work.target := by
  have hinv : link.Inv := hreach.invariant (Link.Inv.start state m workers)
    fun s move s' hinv hord hnext => hinv.next hord hnext
  -- Nothing is under way, so the difficulty in force is the stored one.
  have hforce : link.loop.appliedDifficulty = d := by
    rw [(hinv.settled hjob).eq_of_quiet hquiet.diffCh hquiet.reader, hinv.stored, hsent]
    rfl
  intro w hw
  obtain ⟨work, hwork, htarget⟩ := hinv.onTarget hjob w hw
  refine ⟨work, hwork, ?_⟩
  rw [hforce] at htarget
  obtain ⟨block, hblock⟩ := hinv.lastJob hjob
  have hpos : 0 < d := (hinv.sent d hsent).pos
  simpa [v1JobTarget, hblock, hpos] using htarget

/-- The pool sends difficulty 1 and a job; the engine takes the job first. -/
def sampleRetarget : List LinkMove :=
  [.setDifficulty (.arr [.num 1 true]), .replace, .notify (sampleTemplate.notify [0x61] true),
    .takeJob calmEnv, .takeDifficulty calmEnv]

theorem sampleRetarget_converges : ∃ link,
    (v1Link (fun _ => Bytes.zero32) false).Reach Ordinary
      (Link.start { extranonce := none, en2Counter := 0 } zeroMetrics sampleWorkers) link ∧
    link.sent = some 1 ∧ link.workers.length = 2 ∧
    ∀ w ∈ link.workers, ∃ work, w.work = some work ∧
      targetFromDifficulty 1 = .ok work.target := by
  let L := v1Link (fun _ => Bytes.zero32) false
  let start := Link.start { extranonce := none, en2Counter := 0 } zeroMetrics sampleWorkers
  have hend : (L.exec start sampleRetarget).map (fun link => (link.diffCh, link.jobsCh.isEmpty,
      link.loop.haveJob, link.sent, link.workers.length)) =
        some (Mailbox.empty, true, true, some 1, 2) := by
    decide +kernel
  obtain ⟨link, hexec, hlink⟩ := Option.map_eq_some_iff.mp hend
  simp only [Prod.mk.injEq, List.isEmpty_iff] at hlink
  obtain ⟨hdiff, hjobs, hjob, hsent, hlength⟩ := hlink
  have hdifficulty : Ordinary start (.setDifficulty (.arr [.num 1 true])) := by
    intro d hd
    have hparse : parseDifficulty (.arr [.num 1 true]) = some 1 := by
      simp [parseDifficulty, unmarshalFloats, unmarshalFloat]
    cases hparse.symm.trans hd
    exact ⟨_, targetFromDifficulty_one⟩
  have hnotify : ∀ link, Ordinary link (.notify (sampleTemplate.notify [0x61] true)) := by
    intro link job hjob
    rw [parseNotify_notify] at hjob
    cases hjob
    exact ⟨_, targetFromNBits_diff1⟩
  have hmeets : L.Meets Ordinary start sampleRetarget :=
    ⟨hdifficulty, fun _ _ => ⟨trivial, fun _ _ => ⟨hnotify _, fun _ _ => ⟨⟨rfl, rfl⟩,
      fun _ _ => ⟨⟨rfl, rfl⟩, fun _ _ => trivial⟩⟩⟩⟩⟩
  have hreach := LTS.Reach.exec .init sampleRetarget hmeets hexec
  exact ⟨link, hreach, hsent, hlength,
    v1_retarget_converges _ false _ zeroMetrics sampleWorkers link hreach
      ⟨congrArg Mailbox.writer hdiff, hjobs, congrArg Mailbox.slot hdiff⟩ hjob 1 hsent⟩

end Otedama.Engine
