import Otedama.Engine.SessionV1

/-! # Superseded Stratum V1 jobs

Once the pool has sent a newer job, no work should be issued for an
older one. The loop can break this: a job that arrives while the price
gate is up, or whose target cannot be computed, is received but not
stored, so a later difficulty update re-issues the job before it.

The theorem says when this happens. `lastReceived` and `lastApplied`
are read off the inputs alone; the loop goes back to an older job
exactly when a difficulty update takes effect while they differ. -/

namespace Otedama.Engine

open List

open Miner Poolproto

/-! ## Received and applied jobs -/

/-- The job an input carries. -/
def receivedJob (e : Env × EventV1) : Option Job :=
  match e.2 with
  | .job job _ => some job
  | _ => none

/-- The job an input carries, unless the loop ignores it: the gate is up, or
the target cannot be computed. -/
def appliedJob (e : Env × EventV1) : Option Job :=
  match e.2 with
  | .job job suggested =>
      if e.1.curtailed then none
      else
        match applyJob e.1.unix job suggested with
        | .ok _ => some job
        | .error _ => none
  | _ => none

/-- The job received last. -/
def lastReceived (hist : List (Env × EventV1)) : Option Job :=
  hist.foldl (fun last e => (receivedJob e).or last) none

/-- The job received last among those not ignored. -/
def lastApplied (hist : List (Env × EventV1)) : Option Job :=
  hist.foldl (fun last e => (appliedJob e).or last) none

@[simp] theorem lastReceived_append (hist : List (Env × EventV1)) (e : Env × EventV1) :
    lastReceived (hist ++ [e]) = (receivedJob e).or (lastReceived hist) := by
  simp only [lastReceived, foldl_append, foldl_cons, foldl_nil]

@[simp] theorem lastApplied_append (hist : List (Env × EventV1)) (e : Env × EventV1) :
    lastApplied (hist ++ [e]) = (appliedJob e).or (lastApplied hist) := by
  simp only [lastApplied, foldl_append, foldl_cons, foldl_nil]

/-! ## What the loop remembers -/

/-- The loop's `lastJob` is the job applied last. -/
def RemembersJob (hist : List (Env × EventV1)) (s : SessionV1) : Prop :=
  lastApplied hist = if s.haveJob then some s.lastJob else none

/-- One turn of a live loop. -/
theorem RemembersJob.step {yieldFailover : Bool} {hist : List (Env × EventV1)} {s : SessionV1}
    (h : RemembersJob hist s) (hlive : s.ended = none) (e : Env × EventV1) :
    RemembersJob (hist ++ [e]) (SessionV1.step yieldFailover s e).1 := by
  obtain ⟨env, ev⟩ := e
  unfold RemembersJob at h ⊢
  rw [lastApplied_append]
  have hturn := SessionV1.step_turn yieldFailover hlive env ev
  generalize SessionV1.step yieldFailover s (env, ev) = r at hturn ⊢
  cases hturn with
  | applied hrunning happly => simp [appliedJob, hrunning, happly, SessionV1.applied]
  -- A difficulty update and a share leave `lastJob` alone and carry no job.
  | retargeted => exact h
  | submitted => exact h
  | quiet hjob hlast _ _ hpassed =>
    -- If the input is a job, it is one that the loop ignored.
    have hnone : appliedJob (env, ev) = none := by
      cases ev with
      | job job d =>
        rcases hpassed job d rfl with hcurtailed | ⟨err, herr⟩
        · simp [appliedJob, hcurtailed]
        · simp [appliedJob, herr]
      | _ => rfl
    rw [hnone, hjob, hlast]
    exact h

/-- Along a run, as long as the session lives. -/
theorem run_remembersJob (yieldFailover : Bool) (m : ShareMetrics) (hist : List (Env × EventV1)) :
    ((runSessionV1 yieldFailover).run (SessionV1.start m) hist).ended = none →
      RemembersJob hist ((runSessionV1 yieldFailover).run (SessionV1.start m) hist) := by
  have hstart : RemembersJob [] (SessionV1.start m) := rfl
  exact (runSessionV1 yieldFailover).run_history_live (P := RemembersJob) (Q := fun _ => True)
    (fun s e hdead => SessionV1.step_ended hdead e) hstart
    (fun _ _ e _ hlive ih => ih.step hlive e) hist (fun _ _ => trivial)

/-! ## When work is issued -/

/-- Work is issued for the job of the input, or for `lastJob` by a difficulty
update that takes effect. -/
theorem pushWork_mem_step {yieldFailover : Bool} {s : SessionV1} {e : Env × EventV1} {A : Job}
    {work : Work} (h : .pushWork A work ∈ (SessionV1.step yieldFailover s e).2) :
    receivedJob e = some A ∨ ∃ d, e.2 = .difficulty d ∧ Retargets s e.1 d ∧ A = s.lastJob := by
  obtain ⟨env, ev⟩ := e
  by_cases hlive : s.ended = none
  · have hturn := SessionV1.step_turn yieldFailover hlive env ev
    generalize SessionV1.step yieldFailover s (env, ev) = r at hturn h
    cases hturn with
    | applied =>
      obtain ⟨rfl, rfl⟩ := EffectV1.pushWork.inj (mem_singleton.mp h)
      exact .inl rfl
    | retargeted hretargets =>
      obtain ⟨rfl, rfl⟩ := EffectV1.pushWork.inj (mem_singleton.mp h)
      exact .inr ⟨_, rfl, hretargets, rfl⟩
    | submitted => cases mem_singleton.mp h
    | quiet => cases h
  · rw [SessionV1.step, if_pos (Option.isSome_iff_ne_none.mpr hlive)] at h
    cases h

/-- A difficulty update that takes effect issues work for `lastJob`. -/
theorem Retargets.pushWork (yieldFailover : Bool) {s : SessionV1} {env : Env} {d : ℚ}
    (h : Retargets s env d) :
    ∃ work, .pushWork s.lastJob work ∈ (SessionV1.step yieldFailover s (env, .difficulty d)).2 := by
  obtain ⟨work, hwork⟩ := h.usable
  refine ⟨work, ?_⟩
  simp [SessionV1.step, h.live, onDifficultyV1, h.haveJob, h.running, h.changed, hwork]

/-! ## Whole runs -/

/-- **Going back to a superseded job.**  Along a run, work is issued only for
the job received last if and only if, whenever a difficulty update takes
effect, the job received last is also the one applied last. -/
theorem v1_issues_latest_job_iff (yieldFailover : Bool) (m : ShareMetrics)
    (es : List (Env × EventV1)) :
    (∀ pre e, pre ++ [e] <+: es → ∀ A work,
      .pushWork A work ∈ ((runSessionV1 yieldFailover).step
        ((runSessionV1 yieldFailover).run (SessionV1.start m) pre) e).2 →
      lastReceived (pre ++ [e]) = some A) ↔
    (∀ pre env d, pre ++ [(env, .difficulty d)] <+: es →
      Retargets ((runSessionV1 yieldFailover).run (SessionV1.start m) pre) env d →
      lastReceived pre = lastApplied pre) := by
  constructor
  · -- The update issues work for `lastJob`, which is the job applied last.
    intro h pre env d hpre hret
    obtain ⟨work, hwork⟩ := hret.pushWork yieldFailover
    have hlast := h pre _ hpre _ work hwork
    have hmem := run_remembersJob yieldFailover m pre hret.live
    rw [RemembersJob, hret.haveJob, if_pos rfl] at hmem
    rw [hmem, ← hlast, lastReceived_append]
    rfl
  · -- Work comes from a job just received, or from an update taking effect.
    intro h pre e hpre A work hwork
    rw [lastReceived_append]
    rcases pushWork_mem_step hwork with hrec | ⟨d, hev, hret, rfl⟩
    · rw [hrec]
      rfl
    · obtain ⟨env, ev⟩ := e
      obtain rfl : ev = .difficulty d := hev
      have hmem := run_remembersJob yieldFailover m pre hret.live
      rw [RemembersJob, hret.haveJob, if_pos rfl] at hmem
      rw [h pre env d hpre hret, hmem]
      rfl

/-- Job "A" is applied, the gate goes up, job "B" arrives and is ignored, the
gate comes down. -/
def curtailedJob : List (Env × EventV1) :=
  [(calmEnv, .job (sampleJobV1 [0x41] Bytes.zero32) 0),
   ({ calmEnv with curtailed := true }, .job (sampleJobV1 [0x42] Bytes.zero32) 0)]

/-- The pool's next difficulty update then sends all workers back to "A". -/
theorem curtailedJob_goes_back :
    let s := (runSessionV1 false).run (SessionV1.start zeroMetrics) curtailedJob
    lastReceived (curtailedJob ++ [(calmEnv, .difficulty 1)]) =
        some (sampleJobV1 [0x42] Bytes.zero32) ∧
      sampleJobV1 [0x41] Bytes.zero32 ≠ sampleJobV1 [0x42] Bytes.zero32 ∧
      ∃ work, .pushWork (sampleJobV1 [0x41] Bytes.zero32) work ∈
        ((runSessionV1 false).step s (calmEnv, .difficulty 1)).2 := by
  intro s
  have hs : s.ended = none ∧ s.haveJob = true ∧ s.appliedDifficulty = 0 ∧
      s.lastJob = sampleJobV1 [0x41] Bytes.zero32 := by
    simp [s, curtailedJob, runSessionV1, SessionV1.step, SessionV1.start, onJobV1, calmEnv,
      applyJob_sampleJobV1_zero]
  obtain ⟨hlive, hhave, happlied, hlast⟩ := hs
  refine ⟨rfl, by decide, ?_⟩
  have hret : Retargets s calmEnv 1 := by
    refine ⟨hlive, hhave, rfl, ?_, ?_⟩
    · rw [happlied]
      exact one_ne_zero
    · rw [hlast]
      exact ⟨_, applyJob_sampleJobV1_one _ _ _⟩
  have hpush := hret.pushWork false
  rwa [hlast] at hpush

end Otedama.Engine
