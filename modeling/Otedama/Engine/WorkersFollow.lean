import Otedama.Engine.Work

/-! # Workers follow the session

While nothing holds the workers back (no curtailment, no paused device)
every worker should hash what the session believes to be current: the
active job, on the latest tip, against the current target.

The session advances its own state before it publishes the work, and the
publication can fail: without a share target the block target is used,
and `nBits` may not decode. The workers then keep the old work while
the session has moved on. The result below says exactly when that
happens: the workers follow along a whole run if and only if each frame
that activates or re-issues a job finds a usable target, or finds all
workers idle. -/

namespace Otedama.Engine

open Miner Stratum List

/-! ## What the frames say -/

/-- A job, tip or target frame on our own channel, while the session is
neither curtailed nor has paused devices. -/
structure CalmFrame (opts : SessionOpts) (e : Env × Event) : Prop where
  running : e.1.curtailed = false
  unpaused : e.1.paused = []
  frame : (∃ j : NewMiningJob, j.channelID = opts.chanID ∧ e.2 = .poolMsg (.newMiningJob j)) ∨
    (∃ p : SetNewPrevHash, p.channelID = opts.chanID ∧ e.2 = .poolMsg (.setNewPrevHash p)) ∨
    (∃ t : SetTarget, t.channelID = opts.chanID ∧ e.2 = .poolMsg (.setTarget t))

/-- The latest `SetNewPrevHash` of a history. -/
def latestTip (hist : List (Env × Event)) : Option SetNewPrevHash :=
  hist.foldl (fun tip e => match e.2 with
    | .poolMsg (.setNewPrevHash p) => some p
    | _ => tip) none

/-- The share target after a history: the one of the latest `SetTarget`, or
the one the channel was opened with. -/
def latestTarget (target : Hash) (hist : List (Env × Event)) : Hash :=
  hist.foldl (fun target e => match e.2 with
    | .poolMsg (.setTarget t) => t.target
    | _ => target) target

@[simp] theorem latestTip_append (hist : List (Env × Event)) (e : Env × Event) :
    latestTip (hist ++ [e]) = match e.2 with
      | .poolMsg (.setNewPrevHash p) => some p
      | _ => latestTip hist := by
  simp only [latestTip, foldl_append, foldl_cons, foldl_nil]

@[simp] theorem latestTarget_append (target : Hash) (hist : List (Env × Event))
    (e : Env × Event) :
    latestTarget target (hist ++ [e]) = match e.2 with
      | .poolMsg (.setTarget t) => t.target
      | _ => latestTarget target hist := by
  simp only [latestTarget, foldl_append, foldl_cons, foldl_nil]

/-- The work is the active job `j` on the tip `p`, ground to `target`. -/
structure WorkFor (j : NewMiningJob) (p : SetNewPrevHash) (target : Hash) (work : Work) :
    Prop where
  jobID : work.jobID = j.jobID
  version : work.header.version = j.version
  merkleRoot : work.header.merkleRoot = j.merkleRoot
  prevHash : work.header.prevHash = p.prevHash
  bits : work.header.bits = p.nBits
  target : workTarget target p.nBits = .ok work.target

/-- Every worker is idle or hashes the active job on the latest tip against
the current target; without an active job all are idle. -/
structure Follows (target : Hash) (hist : List (Env × Event)) (l : Loop) : Prop where
  busy : ∀ w ∈ l.workers, ∀ work, w.work = some work →
    ∃ j p, l.session.active = some j ∧ latestTip hist = some p ∧
      WorkFor j p (latestTarget target hist) work
  idle : l.session.active = none → ∀ w ∈ l.workers, w.work = none

/-- Can the target be computed? -/
def Usable (shareTarget : Hash) (nBits : UInt32) : Prop :=
  ∃ t, workTarget shareTarget nBits = .ok t

/-- If the frame activates or re-issues a job, then the target of the new
work can be computed. -/
def Publishable (s : SessionV2) : Message → Prop
  | .newMiningJob j => j.hasNtimeStart = true → s.havePrev = true →
      Usable s.shareTarget s.prevNBits
  | .setNewPrevHash p => p.jobID ∈ s.jobs → Usable s.shareTarget p.nBits
  | .setTarget t => s.active.isSome = true → s.havePrev = true → Usable t.target s.prevNBits
  | _ => True

/-- The condition under which a frame keeps the workers in step. -/
def KeepsStep (l : Loop) (e : Env × Event) : Prop :=
  (∀ w ∈ l.workers, w.work = none) ∨ ∀ msg, e.2 = .poolMsg msg → Publishable l.session msg

/-! ## The session tracks the history -/

/-- What the session knows is what the frames said. -/
structure Tracks (target : Hash) (hist : List (Env × Event)) (s : SessionV2) : Prop where
  live : s.ended = none
  tip : ∀ p, latestTip hist = some p →
    s.havePrev = true ∧ s.prevHash = p.prevHash ∧ s.prevNBits = p.nBits
  noTip : latestTip hist = none → s.havePrev = false
  shareTarget : s.shareTarget = latestTarget target hist
  active_tip : s.active.isSome = true → s.havePrev = true

section

variable {target : Hash} {hist : List (Env × Event)} {s : SessionV2} (h : Tracks target hist s)

include h

theorem Tracks.exists_tip (hprev : s.havePrev = true) :
    ∃ p, latestTip hist = some p ∧ s.prevHash = p.prevHash ∧ s.prevNBits = p.nBits := by
  cases htip : latestTip hist with
  | none => rw [h.noTip htip] at hprev; cases hprev
  | some p => exact ⟨p, rfl, (h.tip p htip).2⟩

/-- `startJob` changes the active job and its ntime only. -/
theorem Tracks.startJob (hprev : s.havePrev = true) (env : Env) (j : NewMiningJob) (ntime : UInt32)
    : Tracks target hist (startJob env s j ntime).1 :=
  ⟨h.live, h.tip, h.noTip, h.shareTarget, fun _ => hprev⟩

theorem Tracks.newMiningJob (env : Env) (j : NewMiningJob) :
    Tracks target (hist ++ [(env, .poolMsg (.newMiningJob j))]) (onNewMiningJob env s j).1 := by
  have h' : Tracks target (hist ++ [(env, .poolMsg (.newMiningJob j))])
      { s with
        jobs := (storeBoundedJob s.jobs s.jobOrder j).1
        jobOrder := (storeBoundedJob s.jobs s.jobOrder j).2 } := by
    refine ⟨h.live, ?_, ?_, ?_, h.active_tip⟩
    · simpa using h.tip
    · simpa using h.noTip
    · simpa using h.shareTarget
  unfold onNewMiningJob
  dsimp only
  split
  · next hguard =>
    have hprev : s.havePrev = true := by
      have hboth : j.hasNtimeStart = true ∧ s.havePrev = true := by simpa using hguard
      exact hboth.2
    exact h'.startJob hprev env j j.ntimeStart
  · exact h'

theorem Tracks.setNewPrevHash (env : Env) (p : SetNewPrevHash) :
    Tracks target (hist ++ [(env, .poolMsg (.setNewPrevHash p))]) (onSetNewPrevHash env s p).1 := by
  have htarget : s.shareTarget =
      latestTarget target (hist ++ [(env, .poolMsg (.setNewPrevHash p))]) := by
    simpa using h.shareTarget
  have htip : ∀ q, latestTip (hist ++ [(env, .poolMsg (.setNewPrevHash p))]) = some q → q = p := by
    intro q hq
    simpa [eq_comm] using hq
  unfold onSetNewPrevHash
  dsimp only
  split
  · refine ⟨h.live, ?_, ?_, htarget, fun _ => rfl⟩
    · intro q hq
      obtain rfl := htip q hq
      exact ⟨rfl, rfl, rfl⟩
    · simp
  · refine ⟨h.live, ?_, ?_, htarget, ?_⟩
    · intro q hq
      obtain rfl := htip q hq
      exact ⟨rfl, rfl, rfl⟩
    · simp
    · simp

theorem Tracks.setTarget (env : Env) (t : SetTarget) :
    Tracks target (hist ++ [(env, .poolMsg (.setTarget t))]) (onSetTarget env s t).1 := by
  have h' : Tracks target (hist ++ [(env, .poolMsg (.setTarget t))])
      { s with shareTarget := t.target } := by
    refine ⟨h.live, ?_, ?_, ?_, h.active_tip⟩
    · simpa using h.tip
    · simpa using h.noTip
    · simp
  unfold onSetTarget
  dsimp only
  split
  · split
    · next hprev => exact h'.startJob hprev env _ _
    · exact h'
  · exact h'

end

/-! ## One frame -/

/-- After work was issued for `j` on the tip `p`, the workers follow exactly
if the target could be computed or they were all idle. -/
theorem follows_issued_iff (chanID now ntime : UInt32) (j : NewMiningJob) {target : Hash}
    {hist : List (Env × Event)} {l : Loop} {workers : List (Worker Work)}
    {p : SetNewPrevHash} (hactive : l.session.active = some j) (htip : latestTip hist = some p)
    (hworkers : l.workers = updateWork [] workers chanID now j p.prevHash p.nBits ntime
      (latestTarget target hist)) : Follows target hist l ↔
      (∀ w ∈ workers, w.work = none) ∨ Usable (latestTarget target hist) p.nBits := by
  cases hwt : workTarget (latestTarget target hist) p.nBits with
  | error err =>
    -- The push fails and the old work stays; it cannot be right, since a
    -- right work has a computed target.
    have hsame : l.workers = workers := by
      rw [hworkers, updateWork, hwt]
    have hnot : ¬ Usable (latestTarget target hist) p.nBits := by
      rintro ⟨t, ht⟩
      rw [hwt] at ht
      cases ht
    constructor
    · intro hf
      left
      intro w hw
      rw [← hsame] at hw
      cases hwork : w.work with
      | none => rfl
      | some work =>
        obtain ⟨j', q, _, hq, hfor⟩ := hf.busy w hw work hwork
        obtain rfl : p = q := Option.some.inj (htip.symm.trans hq)
        exact absurd ⟨work.target, hfor.target⟩ hnot
    · rintro (hidle | husable)
      · refine ⟨?_, ?_⟩
        · intro w hw work hwork
          rw [hsame] at hw
          rw [hidle w hw] at hwork
          cases hwork
        · intro _ w hw
          rw [hsame] at hw
          exact hidle w hw
      · exact absurd husable hnot
  | ok t =>
    have hpush : l.workers =
        pushWork [] (newWork chanID now j p.prevHash p.nBits ntime t) workers := by
      rw [hworkers, updateWork, hwt]
    refine iff_of_true ⟨?_, ?_⟩ (Or.inr ⟨t, hwt⟩)
    · intro w hw work hwork
      rw [hpush] at hw
      obtain ⟨v, _, rfl⟩ := mem_pushWork_nil.mp hw
      obtain rfl : newWork chanID now j p.prevHash p.nBits ntime t = work := Option.some.inj hwork
      exact ⟨j, p, hactive, htip, rfl, rfl, rfl, rfl, rfl, hwt⟩
    · intro hnone
      rw [hactive] at hnone
      cases hnone

/-- A frame that issues nothing and leaves job, tip and target alone keeps
the workers in step. -/
theorem Follows.congr {target : Hash} {hist hist' : List (Env × Event)} {l l' : Loop}
    (h : Follows target hist l) (hactive : l'.session.active = l.session.active)
    (hworkers : l'.workers = l.workers) (htip : latestTip hist' = latestTip hist)
    (htarget : latestTarget target hist' = latestTarget target hist) : Follows target hist' l' := by
  refine ⟨?_, ?_⟩
  · rw [hworkers, hactive, htip, htarget]
    exact h.busy
  · rw [hworkers, hactive]
    exact h.idle

/-- Idle workers follow whatever the session does. -/
theorem Follows.of_idle {target : Hash} {hist : List (Env × Event)} {l : Loop}
    (h : ∀ w ∈ l.workers, w.work = none) : Follows target hist l := by
  refine ⟨?_, fun _ => h⟩
  intro w hw work hwork
  rw [h w hw] at hwork
  cases hwork

/-- A frame on our channel, handled by a live session. -/
theorem sessionLoop_step_own (opts : SessionOpts) {l : Loop} (hlive : l.session.ended = none)
    (env : Env) (msg : Message) (hown : channelIDOf msg = some opts.chanID) :
    ((sessionLoop opts).step l (env, .poolMsg msg)).1 =
      { session := (handleMsg env l.session msg).1
        workers := (handleMsg env l.session msg).2.foldl (applyEffect opts env) l.workers } := by
  have hstep := SessionV2.step_poolMsg hlive env (foreignFrame_own hown)
  show (Loop.step opts l (env, .poolMsg msg)).1 = _
  simp only [Loop.step, hstep]

section

variable {opts : SessionOpts} {target : Hash} {hist : List (Env × Event)} {l : Loop} {env : Env}

/-- A new job: issued at once if it is for the current tip, stored otherwise. -/
theorem newMiningJob_follows_iff (htracks : Tracks target hist l.session)
    (hfollows : Follows target hist l) (hrun : env.curtailed = false) (hpause : env.paused = [])
    (j : NewMiningJob) (hown : j.channelID = opts.chanID) :
    let e : Env × Event := (env, .poolMsg (.newMiningJob j))
    Follows target (hist ++ [e]) ((sessionLoop opts).step l e).1 ↔ KeepsStep l e := by
  intro e
  have hstep := sessionLoop_step_own opts htracks.live env (.newMiningJob j)
    (by rw [← hown]; rfl)
  rw [hstep]
  by_cases hguard : j.hasNtimeStart = true ∧ l.session.havePrev = true
  · obtain ⟨p, htip, hhash, hbits⟩ := htracks.exists_tip hguard.2
    have hkeeps : KeepsStep l e ↔ (∀ w ∈ l.workers, w.work = none) ∨
        Usable (latestTarget target (hist ++ [e])) p.nBits := by
      simp [KeepsStep, e, Publishable, hguard, htracks.shareTarget, hbits]
    rw [hkeeps]
    refine follows_issued_iff opts.chanID env.unix j.ntimeStart j ?_ ?_ ?_
    · simp [handleMsg, onNewMiningJob, hguard, startJob]
    · simpa [e] using htip
    · simp [handleMsg, onNewMiningJob, hguard, startJob, hrun, applyEffect, hpause, e,
        htracks.shareTarget, hhash, hbits]
  · have hkeeps : KeepsStep l e := by
      right
      rintro _ ⟨⟩ hntime hprev
      exact absurd ⟨hntime, hprev⟩ hguard
    have hguard' : (j.hasNtimeStart && l.session.havePrev) = false := by
      simpa using hguard
    refine iff_of_true (hfollows.congr ?_ ?_ ?_ ?_) hkeeps
    · simp [handleMsg, onNewMiningJob, hguard']
    · simp [handleMsg, onNewMiningJob, hguard']
    · simp [e]
    · simp [e]

/-- A new tip: the job it names is issued, or all workers go idle. -/
theorem setNewPrevHash_follows_iff (htracks : Tracks target hist l.session)
    (hrun : env.curtailed = false) (hpause : env.paused = [])
    (p : SetNewPrevHash) (hown : p.channelID = opts.chanID) :
    let e : Env × Event := (env, .poolMsg (.setNewPrevHash p))
    Follows target (hist ++ [e]) ((sessionLoop opts).step l e).1 ↔ KeepsStep l e := by
  intro e
  have hstep := sessionLoop_step_own opts htracks.live env (.setNewPrevHash p)
    (by rw [← hown]; rfl)
  rw [hstep]
  cases hnamed : l.session.jobs.lookup p.jobID with
  | some named =>
    have hmem : p.jobID ∈ l.session.jobs := GoMap.mem_of_lookup hnamed
    have hkeeps : KeepsStep l e ↔ (∀ w ∈ l.workers, w.work = none) ∨
        Usable (latestTarget target (hist ++ [e])) p.nBits := by
      simp [KeepsStep, e, Publishable, hmem, htracks.shareTarget]
    rw [hkeeps]
    refine follows_issued_iff opts.chanID env.unix
      (if named.hasNtimeStart && p.ntimeStart < named.ntimeStart then named.ntimeStart
        else p.ntimeStart) named ?_ ?_ ?_
    · simp [handleMsg, onSetNewPrevHash, hnamed, startJob]
    · simp [e]
    · simp [handleMsg, onSetNewPrevHash, hnamed, startJob, hrun, applyEffect, hpause, e,
        htracks.shareTarget]
  | none =>
    have hnot : p.jobID ∉ l.session.jobs := AList.lookup_eq_none.mp hnamed
    have hkeeps : KeepsStep l e := by
      right
      rintro _ ⟨⟩ hmem
      exact absurd hmem hnot
    refine iff_of_true (Follows.of_idle ?_) hkeeps
    simp only [handleMsg, onSetNewPrevHash, hnamed, foldl_cons, foldl_nil, applyEffect]
    intro w hw
    exact idleAll_work hw

/-- A new share target: the active job is issued again. -/
theorem setTarget_follows_iff (htracks : Tracks target hist l.session)
    (hfollows : Follows target hist l) (hrun : env.curtailed = false) (hpause : env.paused = [])
    (t : SetTarget) (hown : t.channelID = opts.chanID) :
    let e : Env × Event := (env, .poolMsg (.setTarget t))
    Follows target (hist ++ [e]) ((sessionLoop opts).step l e).1 ↔ KeepsStep l e := by
  intro e
  have hstep := sessionLoop_step_own opts htracks.live env (.setTarget t)
    (by rw [← hown]; rfl)
  rw [hstep]
  cases hactive : l.session.active with
  | some j =>
    have hprev : l.session.havePrev = true := htracks.active_tip (by rw [hactive]; rfl)
    obtain ⟨p, htip, hhash, hbits⟩ := htracks.exists_tip hprev
    have hkeeps : KeepsStep l e ↔ (∀ w ∈ l.workers, w.work = none) ∨
        Usable (latestTarget target (hist ++ [e])) p.nBits := by
      simp [KeepsStep, e, Publishable, hactive, hprev, hbits]
    rw [hkeeps]
    refine follows_issued_iff opts.chanID env.unix l.session.activeNTime j ?_ ?_ ?_
    · simp [handleMsg, onSetTarget, hactive, hprev, startJob]
    · simpa [e] using htip
    · simp [handleMsg, onSetTarget, hactive, hprev, startJob, hrun, applyEffect, hpause, e, hhash,
        hbits]
  | none =>
    have hkeeps : KeepsStep l e := by
      right
      rintro _ ⟨⟩ hsome
      rw [hactive] at hsome
      cases hsome
    refine iff_of_true (Follows.of_idle ?_) hkeeps
    simp only [handleMsg, onSetTarget, hactive, foldl_nil]
    exact hfollows.idle hactive

end

/-! ## Whole runs -/

/-- **Workers follow the session, and when they do not.**  Start a session on
idle workers. Over any sequence of job, tip and target frames on our
channel the workers are in step after every frame if and only if every
frame that issues work finds a usable target or only idle workers. -/
theorem workers_follow_iff (opts : SessionOpts) (target : Hash) (m : ShareMetrics)
    (workers : List (Worker Work)) (hidle : ∀ w ∈ workers, w.work = none)
    (es : List (Env × Event)) (hcalm : ∀ e ∈ es, CalmFrame opts e) :
    (∀ pre, pre <+: es →
      Follows target pre ((sessionLoop opts).run (Loop.start target m workers) pre)) ↔
    (sessionLoop opts).Meets KeepsStep (Loop.start target m workers) es := by
  refine (sessionLoop opts).run_exact (A := fun hist l => Tracks target hist l.session)
    (P := fun hist l => Follows target hist l) (C := KeepsStep) (Q := CalmFrame opts) ?_
    (Follows.of_idle hidle) ?_ ?_ es hcalm
  · exact ⟨rfl, nofun, fun _ => rfl, rfl, nofun⟩
  · rintro hist l ⟨env, ev⟩ hcalm htracks
    obtain ⟨_, _, ⟨j, hown, rfl⟩ | ⟨p, hown, rfl⟩ | ⟨t, hown, rfl⟩⟩ := hcalm
    · rw [sessionLoop_step_own opts htracks.live env _ (by rw [← hown]; rfl)]
      exact htracks.newMiningJob env j
    · rw [sessionLoop_step_own opts htracks.live env _ (by rw [← hown]; rfl)]
      exact htracks.setNewPrevHash env p
    · rw [sessionLoop_step_own opts htracks.live env _ (by rw [← hown]; rfl)]
      exact htracks.setTarget env t
  · rintro hist l ⟨env, ev⟩ hcalm htracks hfollows
    obtain ⟨hrun, hpause, ⟨j, hown, rfl⟩ | ⟨p, hown, rfl⟩ | ⟨t, hown, rfl⟩⟩ := hcalm
    · exact newMiningJob_follows_iff htracks hfollows hrun hpause j hown
    · exact setNewPrevHash_follows_iff htracks hrun hpause p hown
    · exact setTarget_follows_iff htracks hfollows hrun hpause t hown

/-- A tip that activates `sampleJob` and a new share target. -/
def calmFrames : List (Env × Event) :=
  [(calmEnv, .poolMsg (.newMiningJob sampleJob)),
   (calmEnv, .poolMsg (.setNewPrevHash sampleTip)),
   (calmEnv, .poolMsg (.setTarget { channelID := 7, target := Vector.replicate 32 1 }))]

theorem calmFrames_calm : ∀ e ∈ calmFrames, CalmFrame sampleOpts e := by
  intro e he
  simp only [calmFrames, mem_cons, not_mem_nil, or_false] at he
  rcases he with rfl | rfl | rfl
  · exact ⟨rfl, rfl, .inl ⟨_, rfl, rfl⟩⟩
  · exact ⟨rfl, rfl, .inr (.inl ⟨_, rfl, rfl⟩)⟩
  · exact ⟨rfl, rfl, .inr (.inr ⟨_, rfl, rfl⟩)⟩

/-- With a share target from the start, both devices end up with the job, the
tip and the new target. -/
theorem calmFrames_follow :
    let l₀ := Loop.start (Vector.replicate 32 2) zeroMetrics sampleWorkers
    ((sessionLoop sampleOpts).run l₀ calmFrames).workers.map (fun w => w.work.map Work.target) =
        [some (Vector.replicate 32 1), some (Vector.replicate 32 1)] ∧
      Follows (Vector.replicate 32 2) calmFrames ((sessionLoop sampleOpts).run l₀ calmFrames) := by
  refine ⟨by decide, ?_⟩
  refine (workers_follow_iff sampleOpts (Vector.replicate 32 2) zeroMetrics sampleWorkers
    (by decide) calmFrames calmFrames_calm).mpr ?_ calmFrames (List.prefix_refl _)
  have husable : ∀ nBits t, t ≠ Bytes.zero32 → Usable t nBits :=
    fun nBits t ht => ⟨t, if_neg ht⟩
  refine ⟨.inr ?_, .inr ?_, .inr ?_, trivial⟩
  · rintro _ ⟨⟩ hntime
    cases hntime
  · rintro _ ⟨⟩ _
    exact husable _ _ (by decide)
  · rintro _ ⟨⟩ _ _
    exact husable _ _ (by decide)

/-- A tip whose `nBits` has an exponent below the minimum. -/
def undecodableTip : SetNewPrevHash :=
  { channelID := 7, jobID := 1, prevHash := Vector.replicate 32 9, ntimeStart := 5,
    nBits := 0x0200ffff }

/-- Without a share target the workers keep hashing on the old tip when the
new one carries an `nBits` that does not decode. -/
theorem undecodableTip_leaves_stale_work :
    let frames : List (Env × Event) :=
      [(calmEnv, .poolMsg (.newMiningJob sampleJob)),
       (calmEnv, .poolMsg (.setNewPrevHash sampleTip)),
       (calmEnv, .poolMsg (.setNewPrevHash undecodableTip))]
    let l := (sessionLoop sampleOpts).run (Loop.start Bytes.zero32 zeroMetrics sampleWorkers) frames
    (∀ e ∈ frames, e.1.curtailed = false ∧ e.1.paused = []) ∧
      latestTip frames = some undecodableTip ∧ l.session.prevHash = undecodableTip.prevHash ∧
      l.session.active = some sampleJob ∧
      l.workers.map (fun w => w.work.map fun work => work.header.prevHash) =
        [some sampleTip.prevHash, some sampleTip.prevHash] ∧
      sampleTip.prevHash ≠ undecodableTip.prevHash ∧
      ¬ Follows Bytes.zero32 frames l := by
  intro frames l
  have hstale : l.workers.map (fun w => w.work.map fun work => work.header.prevHash) =
      [some sampleTip.prevHash, some sampleTip.prevHash] := by decide
  have hne : sampleTip.prevHash ≠ undecodableTip.prevHash := by decide
  refine ⟨by decide, rfl, rfl, rfl, hstale, hne, ?_⟩
  intro hfollows
  obtain ⟨w, hw, hhash⟩ := List.mem_map.mp (hstale ▸ List.mem_cons_self)
  obtain ⟨work, hwork, hprev⟩ := Option.map_eq_some_iff.mp hhash
  obtain ⟨_, p, _, htip, hfor⟩ := hfollows.busy w hw work hwork
  obtain rfl : undecodableTip = p := Option.some.inj htip
  exact hne (hprev.symm.trans hfor.prevHash)

end Otedama.Engine
