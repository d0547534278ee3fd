import Otedama.Engine.SessionV1
import Otedama.Engine.TipHistory
import Otedama.Framework.IdGate
import Otedama.Miner.Rig

/-! # The engine as a concurrent system

Workers and their threads, the goroutines that forward found shares into
the merged channel, and one pool session after another. The workers and
the merged channel outlive the sessions: `runReconnectLoop` idles the
workers when a session has ended, but shares that were already found
stay where they are.

Every goroutine moves on its own; a `Move` says which one takes its next
step and what it meets. The calls of `SetWork` that a turn of the
session loop makes are carried out one at a time (`todo`), so that the
threads can run in between. -/

namespace Otedama.Engine

open Miner Stratum Poolproto List Option

/-! ## What is in flight -/

/-- Published work, with the number of the session that published it and, for
Stratum V1, the `job_id` of its job. -/
structure Issue where
  session : Nat
  name : Option GoString
  work : Work
  deriving DecidableEq, Repr

/-- What a job amounts to: the identifier that the stale-share gate compares,
its name, and the header it is ground with. -/
structure Current where
  wireID : UInt32
  name : Option GoString
  template : Template
  deriving DecidableEq, Repr

/-- A job of a certain session. -/
structure Token where
  session : Nat
  job : Current
  deriving DecidableEq, Repr

def Issue.token (issue : Issue) : Token where
  session := issue.session
  job :=
    { wireID := issue.work.jobID, name := issue.name, template := issue.work.header.template }

/-- A share on its way to a session. -/
abbrev Flying := Emitted Issue Issue.work

/-! ## State -/

/-- A worker and the goroutine of `fanIn` that forwards its shares; `slot` is
the share this goroutine has received and not sent yet. -/
structure Lane where
  rig : Rig Issue Issue.work
  slot : Option Flying

/-- The pool session, if one is up. A Stratum V1 loop does not keep the tip
of a job it passes over; `tip` does: it is the previous block hash of the
last job received, applied or not. -/
inductive Session where
  | down (m : ShareMetrics)
  | v2 (opts : SessionOpts) (s : SessionV2)
  | v1 (yieldFailover : Bool) (s : SessionV1) (tip : Bytes32)

/-- The job that the session regards as current. -/
def Session.current : Session → Option Current
  | .down _ => none
  | .v2 _ s => s.active.map fun j =>
      { wireID := j.jobID, name := none,
        template := { version := j.version, prevHash := s.prevHash, merkleRoot := j.merkleRoot } }
  | .v1 _ s _ =>
      if s.haveJob then
        some { wireID := s.currentJobID, name := some s.currentJobIDStr,
               template := { version := s.lastJob.version, prevHash := s.lastJob.prevHash,
                             merkleRoot := s.lastJob.merkleRoot } }
      else none

theorem Session.current_v2 (opts : SessionOpts) {s : SessionV2} {j : NewMiningJob}
    (h : s.active = some j) : (Session.v2 opts s).current = some
      { wireID := j.jobID, name := none,
        template := { version := j.version, prevHash := s.prevHash,
                      merkleRoot := j.merkleRoot } } := by
  rw [Session.current, h]
  rfl

theorem Session.current_v1 (yieldFailover : Bool) {s : SessionV1} (tip : Bytes32)
    (h : s.haveJob = true) : (Session.v1 yieldFailover s tip).current = some
      { wireID := s.currentJobID, name := some s.currentJobIDStr,
        template := { version := s.lastJob.version, prevHash := s.lastJob.prevHash,
                      merkleRoot := s.lastJob.merkleRoot } } :=
  if_pos h

/-- The previous block hash that the pool announced last. -/
def Session.tip : Session → Bytes32
  | .down _ => Bytes.zero32
  | .v2 _ s => s.prevHash
  | .v1 _ _ tip => tip

def Session.isV1 : Session → Bool
  | .v1 .. => true
  | _ => false

/-- A message that reports a share to the pool. -/
inductive Wire where
  | v2 (sub : SubmitSharesStandard)
  | v1 (sub : ShareSubmission)
  deriving DecidableEq, Repr

/-- A submitted share: in which session, what it was ground from, what the
session regarded as current, the latest tip, and what was sent. -/
structure Submission where
  session : Nat
  share : Flying
  current : Option Current
  tip : Bytes32
  wire : Wire

structure System where
  lanes : List Lane
  /-- The merged share channel. -/
  merged : List Flying
  /-- How many sessions have been started. -/
  sessionNo : Nat
  session : Session
  /-- Calls of `SetWork`, by worker, that the session goroutine has yet to
      make before it goes on. -/
  todo : List (Nat × Option Issue)
  log : List Submission

/-- The job that the running session regards as current. -/
def System.current (sys : System) : Option Token :=
  sys.session.current.map fun job => { session := sys.sessionNo, job := job }

/-- The capacity of the merged channel. -/
def System.mergedCap (sys : System) : Nat := max 1 (min 64 (4 * sys.lanes.length))

/-- An engine whose workers have just been started. -/
def System.start (cfgs : List WorkerConfig) (m : ShareMetrics) : System where
  lanes := cfgs.map fun cfg => { rig := Rig.start Issue.work cfg, slot := none }
  merged := []
  sessionNo := 0
  session := .down m
  todo := []
  log := []

/-! ## Moves -/

inductive Move where
  /-- A Stratum V2 session has completed its handshake. -/
  | startV2 (opts : SessionOpts) (shareTarget : Hash)
  | startV1 (yieldFailover : Bool)
  /-- A turn of the session loop that takes no share. -/
  | turnV2 (env : Env) (e : Event)
  | turnV1 (env : Env) (e : EventV1)
  /-- The session loop receives the oldest share of the merged channel. -/
  | takeShare (env : Env)
  /-- The session has returned; the workers are idled. -/
  | reconnect
  /-- The session goroutine makes its next call of `SetWork`. -/
  | setWork
  /-- The price gate or arbitration idles a worker. -/
  | idle (lane : Nat)
  | reload (lane threadID : Nat)
  | hash (lane threadID : Nat)
  /-- A forwarding goroutine receives a share from its worker ... -/
  | pickUp (lane : Nat)
  /-- ... and sends it into the merged channel. -/
  | putDown (lane : Nat)

def Event.isShare : Event → Bool
  | .share _ => true
  | _ => false

def EventV1.isShare : EventV1 → Bool
  | .share _ => true
  | _ => false

/-- `SetWork(issue)` on every worker that arbitration has not paused. -/
def System.push (sys : System) (paused : List String) (issue : Issue) :
    List (Nat × Option Issue) :=
  (sys.lanes.zipIdx.filter fun (lane, _) => lane.rig.worker.deviceID ∉ paused).map
    fun (_, i) => (i, some issue)

/-- `SetWork(nil)` on every worker. -/
def System.idleAll (sys : System) : List (Nat × Option Issue) :=
  (List.range sys.lanes.length).map fun i => (i, none)

/-- The calls of `SetWork` behind an effect of a Stratum V2 session. -/
def System.callsV2 (sys : System) (opts : SessionOpts) (env : Env) :
    Effect → List (Nat × Option Issue)
  | .updateWork job prevHash prevNBits ntime shareTarget =>
      match workTarget shareTarget prevNBits with
      | .ok target =>
          sys.push env.paused
            { session := sys.sessionNo, name := none,
              work := newWork opts.chanID env.unix job prevHash prevNBits ntime target }
      | .error _ => []
  | .idleWorkers => sys.idleAll
  | .recordLatency .. => []
  | .submit _ => []

/-- The calls of `SetWork` behind an effect of a Stratum V1 session. -/
def System.callsV1 (sys : System) (env : Env) : EffectV1 → List (Nat × Option Issue)
  | .pushWork job work =>
      sys.push env.paused { session := sys.sessionNo, name := some job.jobID, work := work }
  | .submit _ => []

/-- What is recorded when the session sends a share out. -/
def System.submission (sys : System) (share : Flying) (wire : Wire) : Submission :=
  { session := sys.sessionNo, share := share, current := sys.session.current,
    tip := sys.session.tip, wire := wire }

/-- The tip after an event of a Stratum V1 session. -/
def announcedTip (tip : Bytes32) : EventV1 → Bytes32
  | .job job _ => job.prevHash
  | _ => tip

/-- The session loop receives `share`. -/
def System.deliver (sys : System) (env : Env) (share : Flying) (merged : List Flying) :
    Option System :=
  match sys.session with
  | .down _ => none
  | .v2 opts s =>
      if s.ended.isSome then none
      else
        let r := SessionV2.step opts s (env, .share share.share)
        some { sys with
          merged := merged
          session := .v2 opts r.1
          log := sys.log ++ r.2.filterMap fun
            | .submit sub => some (sys.submission share (.v2 sub))
            | _ => none }
  | .v1 yieldFailover s tip =>
      if s.ended.isSome then none
      else
        let r := SessionV1.step yieldFailover s (env, .share share.share)
        some { sys with
          merged := merged
          session := .v1 yieldFailover r.1 tip
          log := sys.log ++ r.2.filterMap fun
            | .submit sub => some (sys.submission share (.v1 sub))
            | _ => none }

section

variable (sha256 : List UInt8 → Bytes32)

/-- A move of one worker. -/
def System.moveRig (sys : System) (i : Nat) (move : RigMove Issue) : Option System :=
  match sys.lanes[i]? with
  | none => none
  | some lane =>
      match lane.rig.next sha256 move with
      | none => none
      | some rig => some { sys with lanes := sys.lanes.set i { lane with rig := rig } }

def System.next (sys : System) : Move → Option System
  | .startV2 opts shareTarget =>
      match sys.session, sys.todo with
      | .down m, [] =>
          some { sys with
            sessionNo := sys.sessionNo + 1, session := .v2 opts (SessionV2.start shareTarget m) }
      | _, _ => none
  | .startV1 yieldFailover =>
      match sys.session, sys.todo with
      | .down m, [] =>
          some { sys with
            sessionNo := sys.sessionNo + 1
            session := .v1 yieldFailover (SessionV1.start m) Bytes.zero32 }
      | _, _ => none
  -- A turn ends with its last call of `SetWork`: while calls are pending the
  -- session goroutine does nothing else.
  | .turnV2 env e =>
      match sys.session, sys.todo with
      | .v2 opts s, [] =>
          if s.ended.isSome || e.isShare then none
          else
            let r := SessionV2.step opts s (env, e)
            some { sys with session := .v2 opts r.1, todo := r.2.flatMap (sys.callsV2 opts env) }
      | _, _ => none
  | .turnV1 env e =>
      match sys.session, sys.todo with
      | .v1 yieldFailover s tip, [] =>
          if s.ended.isSome || e.isShare then none
          else
            let r := SessionV1.step yieldFailover s (env, e)
            some { sys with
              session := .v1 yieldFailover r.1 (announcedTip tip e)
              todo := r.2.flatMap (sys.callsV1 env) }
      | _, _ => none
  | .takeShare env =>
      match sys.merged, sys.todo with
      | share :: merged, [] => sys.deliver env share merged
      | _, _ => none
  -- The workers are idled, but nothing is taken out of the channels.
  | .reconnect =>
      match sys.session, sys.todo with
      | .v2 _ s, [] =>
          if s.ended.isSome then some { sys with session := .down s.m, todo := sys.idleAll }
          else none
      | .v1 _ s _, [] =>
          if s.ended.isSome then some { sys with session := .down s.m, todo := sys.idleAll }
          else none
      | _, _ => none
  | .setWork =>
      match sys.todo with
      | [] => none
      | (i, work) :: todo => { sys with todo := todo }.moveRig sha256 i (.setWork work)
  -- The gate and arbitration run beside the session, between any two steps.
  | .idle i => sys.moveRig sha256 i (.setWork none)
  | .reload i threadID => sys.moveRig sha256 i (.reload threadID)
  | .hash i threadID => sys.moveRig sha256 i (.hash threadID)
  | .pickUp i =>
      match sys.lanes[i]? with
      | some { rig := rig, slot := none } =>
          match rig.shares with
          | [] => none
          | share :: shares =>
              some { sys with
                lanes := sys.lanes.set i
                  { rig := { rig with shares := shares }, slot := some share } }
      | _ => none
  -- The send blocks while the merged channel is full.
  | .putDown i =>
      match sys.lanes[i]? with
      | some { rig := rig, slot := some share } =>
          if sys.merged.length < sys.mergedCap then
            some { sys with
              lanes := sys.lanes.set i { rig := rig, slot := none }
              merged := sys.merged ++ [share] }
          else none
      | _ => none

/-- The engine as a labelled step system. -/
def engine : LTS System Move where
  next := System.next sha256

end

/-! ## In flight

Everything that can still become a submitted share. -/

def Lane.held (lane : Lane) : List Issue := lane.rig.held ++ lane.slot.toList.map Emitted.ref

/-- The issues in flight. -/
def System.flight (sys : System) : List Issue :=
  sys.lanes.flatMap Lane.held ++ sys.merged.map Emitted.ref ++ sys.todo.filterMap Prod.snd

section

variable {sys sys' : System} {issue : Issue}

theorem Lane.mem_held {lane : Lane} : issue ∈ lane.held ↔
    issue ∈ lane.rig.held ∨ ∃ share, lane.slot = some share ∧ share.ref = issue := by
  simp [Lane.held]

theorem System.mem_flight : issue ∈ sys.flight ↔
    (∃ lane ∈ sys.lanes, issue ∈ lane.held) ∨ (∃ share ∈ sys.merged, share.ref = issue) ∨
      ∃ i, (i, some issue) ∈ sys.todo := by
  simp [System.flight]

/-- Changing one lane adds nothing but what the new lane holds. -/
theorem System.mem_flight_set {i : Nat} {lane : Lane}
    (h : issue ∈ { sys with lanes := sys.lanes.set i lane }.flight) :
    issue ∈ sys.flight ∨ issue ∈ lane.held := by
  rw [System.mem_flight] at h
  rcases h with ⟨lane', hlane', hheld⟩ | hrest
  · rcases mem_or_eq_of_mem_set hlane' with hold | rfl
    · exact .inl (System.mem_flight.mpr (.inl ⟨lane', hold, hheld⟩))
    · exact .inr hheld
  · exact .inl (System.mem_flight.mpr (.inr hrest))

theorem System.mem_flight_of_lane {i : Nat} {lane : Lane} (hlane : sys.lanes[i]? = some lane)
    (hheld : issue ∈ lane.held) : issue ∈ sys.flight :=
  System.mem_flight.mpr (.inl ⟨lane, mem_of_getElem? hlane, hheld⟩)

/-- New pending calls add nothing but what they publish. -/
theorem System.mem_flight_todo (h : issue ∈ sys'.flight) (sys : System)
    (hlanes : sys'.lanes = sys.lanes) (hmerged : sys'.merged = sys.merged) :
    issue ∈ sys.flight ∨ ∃ i, (i, some issue) ∈ sys'.todo := by
  rw [System.mem_flight, hlanes, hmerged] at h
  rcases h with hlane | hshare | hcall
  · exact .inl (System.mem_flight.mpr (.inl hlane))
  · exact .inl (System.mem_flight.mpr (.inr (.inl hshare)))
  · exact .inr hcall

section

variable {sha256 : List UInt8 → Bytes32} {i : Nat} {move : RigMove Issue}
  (h : sys.moveRig sha256 i move = some sys')

include h

/-- What a move of one worker does. -/
theorem System.moveRig_eq_some :
    ∃ lane rig, sys.lanes[i]? = some lane ∧ lane.rig.next sha256 move = some rig ∧
      sys' = { sys with lanes := sys.lanes.set i { lane with rig := rig } } := by
  unfold System.moveRig at h
  split at h
  · cases h
  · next lane hlane =>
    split at h
    · cases h
    · next rig hrig => exact ⟨lane, rig, hlane, hrig, (some.inj h).symm⟩

/-- A move of one worker puts only what `SetWork` publishes into flight. -/
theorem System.moveRig_flight (hflight : issue ∈ sys'.flight) :
    issue ∈ sys.flight ∨ move = .setWork (some issue) := by
  obtain ⟨lane, rig, hlane, hrig, rfl⟩ := System.moveRig_eq_some h
  rcases System.mem_flight_set hflight with hold | hheld
  · exact .inl hold
  · rcases Lane.mem_held.mp hheld with hrigHeld | hslot
    · rcases Rig.held_next sha256 hrig hrigHeld with hold | hset
      · exact .inl (System.mem_flight_of_lane hlane (Lane.mem_held.mpr (.inl hold)))
      · exact .inr hset
    · exact .inl (System.mem_flight_of_lane hlane (Lane.mem_held.mpr (.inr hslot)))

end

/-- Only the issue that is pushed is in the calls of a push. -/
theorem System.mem_push {paused : List String} {pushed : Issue} {i : Nat}
    (h : (i, some issue) ∈ sys.push paused pushed) : issue = pushed := by
  obtain ⟨_, _, heq⟩ := mem_map.mp h
  exact (some.inj (congrArg Prod.snd heq)).symm

/-- Picking up a share. -/
theorem System.pickUp_flight {i : Nat} {rig : Rig Issue Issue.work} {share : Flying} {shares : List Flying}
    (hlane : sys.lanes[i]? = some { rig := rig, slot := none })
    (hshares : rig.shares = share :: shares)
    (hflight : issue ∈ { sys with
      lanes := sys.lanes.set i
        { rig := { rig with shares := shares }, slot := some share } }.flight) :
    issue ∈ sys.flight := by
  rcases System.mem_flight_set hflight with hold | hheld
  · exact hold
  · refine System.mem_flight_of_lane hlane (Lane.mem_held.mpr (.inl ?_))
    rw [Rig.mem_held]
    rcases Lane.mem_held.mp hheld with hrig | ⟨_, hslot, href⟩
    · rcases Rig.mem_held.mp hrig with hwork | hthread | ⟨em, hem, href⟩
      · exact .inl hwork
      · exact .inr (.inl hthread)
      · exact .inr (.inr ⟨em, by rw [hshares]; exact mem_cons_of_mem _ hem, href⟩)
    · obtain rfl := some.inj hslot
      exact .inr (.inr ⟨share, by rw [hshares]; exact mem_cons_self, href⟩)

/-- Putting a share down into the merged channel. -/
theorem System.putDown_flight {i : Nat} {rig : Rig Issue Issue.work} {share : Flying}
    (hlane : sys.lanes[i]? = some { rig := rig, slot := some share })
    (hflight : issue ∈ { sys with
      lanes := sys.lanes.set i { rig := rig, slot := none }
      merged := sys.merged ++ [share] }.flight) :
    issue ∈ sys.flight := by
  rcases System.mem_flight.mp hflight with ⟨lane, hmem, hheld⟩ | ⟨em, hem, href⟩ | hcall
  · rcases mem_or_eq_of_mem_set hmem with hold | rfl
    · exact System.mem_flight.mpr (.inl ⟨lane, hold, hheld⟩)
    · rcases Lane.mem_held.mp hheld with hrig | ⟨_, hslot, _⟩
      · exact System.mem_flight_of_lane hlane (Lane.mem_held.mpr (.inl hrig))
      · cases hslot
  · rcases mem_append.mp hem with hold | hnew
    · exact System.mem_flight.mpr (.inr (.inl ⟨em, hold, href⟩))
    · obtain rfl := mem_singleton.mp hnew
      exact System.mem_flight_of_lane hlane (Lane.mem_held.mpr (.inr ⟨em, rfl, href⟩))
  · exact System.mem_flight.mpr (.inr (.inr hcall))

theorem System.mem_idleAll {i : Nat} : (i, some issue) ∉ sys.idleAll := by
  simp [System.idleAll]

end

/-! ## What a step does -/

/-- The ways in which the engine moves. -/
inductive Stepped (sha256 : List UInt8 → Bytes32) (sys : System) : Move → System → Prop where
  | startV2 {m : ShareMetrics} {opts : SessionOpts} {shareTarget : Hash}
      (hsession : sys.session = .down m) (htodo : sys.todo = []) :
      Stepped sha256 sys (.startV2 opts shareTarget) { sys with
        sessionNo := sys.sessionNo + 1, session := .v2 opts (SessionV2.start shareTarget m) }
  | startV1 {m : ShareMetrics} {yieldFailover : Bool}
      (hsession : sys.session = .down m) (htodo : sys.todo = []) :
      Stepped sha256 sys (.startV1 yieldFailover) { sys with
        sessionNo := sys.sessionNo + 1
        session := .v1 yieldFailover (SessionV1.start m) Bytes.zero32 }
  | turnV2 {opts : SessionOpts} {s : SessionV2} {env : Env} {e : Event}
      (hsession : sys.session = .v2 opts s) (htodo : sys.todo = []) (hlive : s.ended = none)
      (hshare : e.isShare = false) :
      Stepped sha256 sys (.turnV2 env e) { sys with
        session := .v2 opts (SessionV2.step opts s (env, e)).1
        todo := (SessionV2.step opts s (env, e)).2.flatMap (sys.callsV2 opts env) }
  | turnV1 {yieldFailover : Bool} {s : SessionV1} {tip : Bytes32} {env : Env} {e : EventV1}
      (hsession : sys.session = .v1 yieldFailover s tip) (htodo : sys.todo = [])
      (hlive : s.ended = none) (hshare : e.isShare = false) :
      Stepped sha256 sys (.turnV1 env e) { sys with
        session := .v1 yieldFailover (SessionV1.step yieldFailover s (env, e)).1
          (announcedTip tip e)
        todo := (SessionV1.step yieldFailover s (env, e)).2.flatMap (sys.callsV1 env) }
  | takeShare {sys' : System} {env : Env} {share : Flying} {merged : List Flying}
      (hmerged : sys.merged = share :: merged) (htodo : sys.todo = [])
      (hdeliver : sys.deliver env share merged = some sys') :
      Stepped sha256 sys (.takeShare env) sys'
  | reconnect {m : ShareMetrics} (htodo : sys.todo = []) :
      Stepped sha256 sys .reconnect { sys with session := .down m, todo := sys.idleAll }
  | setWork {sys' : System} {i : Nat} {work : Option Issue}
      {todo : List (Nat × Option Issue)}
      (htodo : sys.todo = (i, work) :: todo)
      (hrig : { sys with todo := todo }.moveRig sha256 i (.setWork work) = some sys') :
      Stepped sha256 sys .setWork sys'
  | idle {sys' : System} {i : Nat}
      (hrig : sys.moveRig sha256 i (.setWork none) = some sys') :
      Stepped sha256 sys (.idle i) sys'
  | reload {sys' : System} {i threadID : Nat}
      (hrig : sys.moveRig sha256 i (.reload threadID) = some sys') :
      Stepped sha256 sys (.reload i threadID) sys'
  | hash {sys' : System} {i threadID : Nat}
      (hrig : sys.moveRig sha256 i (.hash threadID) = some sys') :
      Stepped sha256 sys (.hash i threadID) sys'
  | pickUp {i : Nat} {rig : Rig Issue Issue.work} {share : Flying} {shares : List Flying}
      (hlane : sys.lanes[i]? = some { rig := rig, slot := none })
      (hshares : rig.shares = share :: shares) :
      Stepped sha256 sys (.pickUp i) { sys with
        lanes := sys.lanes.set i { rig := { rig with shares := shares }, slot := some share } }
  | putDown {i : Nat} {rig : Rig Issue Issue.work} {share : Flying}
      (hlane : sys.lanes[i]? = some { rig := rig, slot := some share }) :
      Stepped sha256 sys (.putDown i) { sys with
        lanes := sys.lanes.set i { rig := rig, slot := none }
        merged := sys.merged ++ [share] }

/-- In a Stratum V1 session the identifier and the name of the current job
are those of the last applied job. -/
def Session.Coherent : Session → Prop
  | .v1 _ s _ => s.haveJob = true →
      s.currentJobID = v1JobWireID s.lastJob.jobID ∧ s.currentJobIDStr = s.lastJob.jobID
  | _ => True

section

variable {sys sys' : System} {issue : Issue}

/-- What a turn of a Stratum V2 session publishes is its current job. -/
theorem callsV2_current {opts : SessionOpts} {s : SessionV2} {env : Env} {e : Event} {i : Nat}
    (h : (i, some issue) ∈ (SessionV2.step opts s (env, e)).2.flatMap (sys.callsV2 opts env)) :
    issue.session = sys.sessionNo ∧
      (Session.v2 opts (SessionV2.step opts s (env, e)).1).current = some issue.token.job := by
  obtain ⟨effect, heffect, hcall⟩ := mem_flatMap.mp h
  cases effect with
  | updateWork job prevHash prevNBits ntime shareTarget =>
    simp only [System.callsV2] at hcall
    split at hcall
    · obtain rfl := System.mem_push hcall
      obtain ⟨hactive, hprev, -, -⟩ := (step_repeats heffect).2
      refine ⟨rfl, ?_⟩
      rw [Session.current_v2 opts hactive, hprev]
      rfl
    · cases hcall
  | idleWorkers => exact absurd hcall System.mem_idleAll
  | _ => cases hcall

/-- What a turn of a Stratum V1 session publishes is its current job. -/
theorem callsV1_current {yieldFailover : Bool} {s : SessionV1} {tip : Bytes32} {env : Env}
    {e : EventV1} {i : Nat} (hlive : s.ended = none)
    (hcoherent : (Session.v1 yieldFailover s tip).Coherent)
    (h : (i, some issue) ∈ (SessionV1.step yieldFailover s (env, e)).2.flatMap (sys.callsV1 env)) :
    issue.session = sys.sessionNo ∧
      (Session.v1 yieldFailover (SessionV1.step yieldFailover s (env, e)).1
        (announcedTip tip e)).current = some issue.token.job := by
  obtain ⟨effect, heffect, hcall⟩ := mem_flatMap.mp h
  have hturn := SessionV1.step_turn yieldFailover hlive env e
  generalize SessionV1.step yieldFailover s (env, e) = r at hturn heffect ⊢
  cases hturn with
  | applied _ happly =>
    obtain rfl := mem_singleton.mp heffect
    obtain rfl := System.mem_push hcall
    obtain ⟨target, -, rfl⟩ := applyJob_eq_ok happly
    exact ⟨rfl, rfl⟩
  | retargeted hretargets happly =>
    -- The job is the last applied one, and coherence makes it the current one.
    obtain rfl := mem_singleton.mp heffect
    obtain rfl := System.mem_push hcall
    obtain ⟨target, -, rfl⟩ := applyJob_eq_ok happly
    obtain ⟨hid, hstr⟩ := hcoherent hretargets.haveJob
    refine ⟨rfl, ?_⟩
    simp only [Session.current, hretargets.haveJob, if_true, hid, hstr]
    rfl
  | submitted =>
    obtain rfl := mem_singleton.mp heffect
    cases hcall
  | quiet => cases heffect

theorem System.next_stepped {sha256 : List UInt8 → Bytes32} {move : Move}
    (h : sys.next sha256 move = some sys') : Stepped sha256 sys move sys' := by
  cases move with
  | startV2 opts shareTarget =>
    simp only [System.next] at h
    split at h
    · next hsession htodo =>
      obtain rfl := some.inj h
      exact .startV2 hsession htodo
    · cases h
  | startV1 yieldFailover =>
    simp only [System.next] at h
    split at h
    · next hsession htodo =>
      obtain rfl := some.inj h
      exact .startV1 hsession htodo
    · cases h
  | turnV2 env e =>
    simp only [System.next] at h
    split at h
    · next hsession htodo =>
      split at h
      · cases h
      · next hguard =>
        obtain rfl := some.inj h
        rw [Bool.or_eq_true, not_or] at hguard
        exact .turnV2 hsession htodo (by simpa using hguard.1) (by simpa using hguard.2)
    · cases h
  | turnV1 env e =>
    simp only [System.next] at h
    split at h
    · next hsession htodo =>
      split at h
      · cases h
      · next hguard =>
        obtain rfl := some.inj h
        rw [Bool.or_eq_true, not_or] at hguard
        exact .turnV1 hsession htodo (by simpa using hguard.1) (by simpa using hguard.2)
    · cases h
  | takeShare env =>
    simp only [System.next] at h
    split at h
    · next hmerged htodo => exact .takeShare hmerged htodo h
    · cases h
  | reconnect =>
    simp only [System.next] at h
    split at h
    · next htodo =>
      split at h
      · obtain rfl := some.inj h
        exact .reconnect htodo
      · cases h
    · next htodo =>
      split at h
      · obtain rfl := some.inj h
        exact .reconnect htodo
      · cases h
    · cases h
  | setWork =>
    simp only [System.next] at h
    split at h
    · cases h
    · next htodo => exact .setWork htodo h
  | idle i => exact .idle h
  | reload i threadID => exact .reload h
  | hash i threadID => exact .hash h
  | pickUp i =>
    simp only [System.next] at h
    split at h
    · next hlane =>
      split at h
      · cases h
      · next hshares =>
        obtain rfl := some.inj h
        exact .pickUp hlane hshares
    · cases h
  | putDown i =>
    simp only [System.next] at h
    split at h
    · next hlane =>
      split at h
      · obtain rfl := some.inj h
        exact .putDown hlane
      · cases h
    · cases h

/-- A turn of a Stratum V1 session keeps it coherent. -/
theorem Session.coherent_turnV1 {yieldFailover : Bool} {s : SessionV1} {tip tip' : Bytes32}
    (hlive : s.ended = none) (env : Env) (e : EventV1)
    (hcoherent : (Session.v1 yieldFailover s tip).Coherent) :
    (Session.v1 yieldFailover (SessionV1.step yieldFailover s (env, e)).1 tip').Coherent := by
  have hturn := SessionV1.step_turn yieldFailover hlive env e
  generalize SessionV1.step yieldFailover s (env, e) = r at hturn ⊢
  cases hturn with
  | applied => exact fun _ => ⟨rfl, rfl⟩
  | retargeted => exact hcoherent
  | submitted => exact hcoherent
  | quiet hjob hlast hid hstr =>
    simp only [Session.Coherent, hjob, hlast, hid, hstr]
    exact hcoherent

/-- What delivering a share does: the session goes on, and the share is
submitted only if it bears the identifier of the current job. -/
theorem System.deliver_eq_some {env : Env} {share : Flying} {merged : List Flying}
    (h : sys.deliver env share merged = some sys') :
    ∃ session log, sys' = { sys with merged := merged, session := session, log := log } ∧
      (sys.session.Coherent → session.Coherent) ∧
      session.current = sys.session.current ∧ session.tip = sys.session.tip ∧
      (log = sys.log ∨ ∃ wire c, log = sys.log ++ [sys.submission share wire] ∧
        sys.session.current = some c ∧ share.share.jobID = c.wireID ∧
        ∀ sub, wire = .v1 sub → sys.session.isV1 = true ∧ c.name = some sub.jobID) := by
  unfold System.deliver at h
  split at h
  · cases h
  · next opts s hsession =>
    split at h
    · cases h
    · next hlive =>
      have hlive' : s.ended = none := by simpa using hlive
      obtain rfl := some.inj h
      have hstep : SessionV2.step opts s (env, .share share.share) =
          onShare opts env s share.share := by
        simp [SessionV2.step, hlive']
      have hsame := onShare_sameJobs opts env s share.share
      rw [hstep]
      refine ⟨_, _, rfl, fun _ => trivial, ?_, ?_, ?_⟩
      · rw [hsession]
        simp only [Session.current, hsame.active, hsame.prevHash]
      · rw [hsession]
        exact hsame.prevHash
      rcases onShare_cases opts env s share.share with ⟨j, hactive, hid, heq⟩ | heq
      · have hcurrent := Session.current_v2 opts hactive
        rw [← hsession] at hcurrent
        refine .inr ⟨.v2 (submitMsg opts (s.seqNum + 1) share.share), _, ?_, hcurrent, hid, ?_⟩
        · simp [heq]
        · rintro sub ⟨⟩
      · left
        simp [heq]
  · next yieldFailover s tip hsession =>
    split at h
    · cases h
    · next hlive =>
      have hlive' : s.ended = none := by simpa using hlive
      obtain rfl := some.inj h
      have hturn := SessionV1.step_turn yieldFailover hlive' env (.share share.share)
      refine ⟨_, _, rfl, ?_, ?_, ?_, ?_⟩
      · rw [hsession]
        exact Session.coherent_turnV1 hlive' env _
      · rw [hsession]
        generalize SessionV1.step yieldFailover s (env, .share share.share) = r at hturn ⊢
        cases hturn with
        | submitted => rfl
        | quiet hjob hlast hid hstr => simp only [Session.current, hjob, hlast, hid, hstr]
      · rw [hsession]
        rfl
      · generalize SessionV1.step yieldFailover s (env, .share share.share) = r at hturn ⊢
        cases hturn with
        | submitted hjob hid =>
          have hcurrent := Session.current_v1 yieldFailover tip hjob
          rw [← hsession] at hcurrent
          refine .inr ⟨_, _, rfl, hcurrent, hid, ?_⟩
          rintro sub ⟨⟩
          rw [hsession]
          exact ⟨rfl, rfl⟩
        | quiet => exact .inl (append_nil _)

section

variable {sha256 : List UInt8 → Bytes32}

theorem System.moveRig_session {i : Nat} {move : RigMove Issue}
    (h : sys.moveRig sha256 i move = some sys') :
    sys'.session = sys.session ∧ sys'.sessionNo = sys.sessionNo ∧ sys'.log = sys.log := by
  obtain ⟨lane, rig, -, -, rfl⟩ := System.moveRig_eq_some h
  exact ⟨rfl, rfl, rfl⟩

/-- Every step keeps the session coherent. -/
theorem System.next_coherent {move : Move} (hcoherent : sys.session.Coherent)
    (h : sys.next sha256 move = some sys') : sys'.session.Coherent := by
  cases System.next_stepped h with
  | startV2 => trivial
  | startV1 => exact fun hjob => Bool.noConfusion hjob
  | turnV2 => trivial
  | turnV1 hsession _ hlive =>
    rw [hsession] at hcoherent
    exact Session.coherent_turnV1 hlive _ _ hcoherent
  | takeShare _ _ hdeliver =>
    obtain ⟨session, log, rfl, hkeeps, -⟩ := System.deliver_eq_some hdeliver
    exact hkeeps hcoherent
  | reconnect => trivial
  | setWork _ hrig | idle hrig | reload hrig | hash hrig =>
    exact (System.moveRig_session hrig).1 ▸ hcoherent
  | pickUp => exact hcoherent
  | putDown => exact hcoherent

/-- Submissions are shares of the merged channel that bear the identifier of
the current job. -/
theorem System.next_log {move : Move} {sub : Submission} (h : sys.next sha256 move = some sys')
    (hsub : sub ∈ sys'.log) :
    sub ∈ sys.log ∨ ∃ share wire c, sub = sys.submission share wire ∧ share ∈ sys.merged ∧
      sys.session.current = some c ∧ share.share.jobID = c.wireID ∧
      ∀ sent, wire = .v1 sent → sys.session.isV1 = true ∧ c.name = some sent.jobID := by
  cases System.next_stepped h with
  | takeShare hmerged _ hdeliver =>
    obtain ⟨session, log, rfl, -, -, -, hlog⟩ := System.deliver_eq_some hdeliver
    rcases hlog with hsame | ⟨wire, c, happend, hcurrent, hid, hname⟩
    · exact .inl (hsame ▸ hsub)
    · have hmem : sub ∈ sys.log ++ [sys.submission _ wire] := happend ▸ hsub
      rcases mem_append.mp hmem with hold | hnew
      · exact .inl hold
      · refine .inr ⟨_, wire, c, mem_singleton.mp hnew, ?_, hcurrent, hid, hname⟩
        rw [hmerged]
        exact mem_cons_self
  | setWork _ hrig | idle hrig | reload hrig | hash hrig =>
    exact .inl ((System.moveRig_session hrig).2.2 ▸ hsub)
  | _ => exact .inl hsub

/-- Whatever is in flight after a step was so before, or is the current job. -/
theorem System.next_flight {move : Move} (hcoherent : sys.session.Coherent)
    (h : sys.next sha256 move = some sys') (hflight : issue ∈ sys'.flight) :
    issue ∈ sys.flight ∨ sys'.current = some issue.token := by
  cases System.next_stepped h with
  | startV2 | startV1 => exact .inl hflight
  | turnV2 hsession htodo hlive =>
    rcases System.mem_flight_todo hflight sys rfl rfl with hold | ⟨i, hcall⟩
    · exact .inl hold
    · obtain ⟨hno, hcurrent⟩ := callsV2_current hcall
      right
      rw [System.current, hcurrent, map_some, ← hno]
      rfl
  | turnV1 hsession htodo hlive =>
    rcases System.mem_flight_todo hflight sys rfl rfl with hold | ⟨i, hcall⟩
    · exact .inl hold
    · rw [hsession] at hcoherent
      obtain ⟨hno, hcurrent⟩ := callsV1_current hlive hcoherent hcall
      right
      rw [System.current, hcurrent, map_some, ← hno]
      rfl
  | takeShare hmerged htodo hdeliver =>
    -- The share that was received is no longer in flight; the rest is.
    left
    obtain ⟨session, log, rfl, -⟩ := System.deliver_eq_some hdeliver
    rcases System.mem_flight.mp hflight with hlanes | ⟨share, hshare, href⟩ | hcall
    · exact System.mem_flight.mpr (.inl hlanes)
    · refine System.mem_flight.mpr (.inr (.inl ⟨share, ?_, href⟩))
      rw [hmerged]
      exact mem_cons_of_mem _ hshare
    · exact System.mem_flight.mpr (.inr (.inr hcall))
  | reconnect htodo =>
    rcases System.mem_flight_todo hflight sys rfl rfl with hold | ⟨i, hcall⟩
    · exact .inl hold
    · exact absurd hcall System.mem_idleAll
  | @setWork _ i work todo htodo hrig =>
    left
    rcases System.moveRig_flight hrig hflight with hold | hset
    · rcases System.mem_flight_todo hold sys rfl rfl with hold | ⟨j, hcall⟩
      · exact hold
      · refine System.mem_flight.mpr (.inr (.inr ⟨j, ?_⟩))
        rw [htodo]
        exact mem_cons_of_mem _ hcall
    · -- The call that was pending has been made.
      obtain rfl := RigMove.setWork.inj hset
      refine System.mem_flight.mpr (.inr (.inr ⟨i, ?_⟩))
      rw [htodo]
      exact mem_cons_self
  | idle hrig | reload hrig | hash hrig =>
    rcases System.moveRig_flight hrig hflight with hold | hset
    · exact .inl hold
    · cases hset
  | pickUp hlane hshares => exact .inl (System.pickUp_flight hlane hshares hflight)
  | putDown hlane => exact .inl (System.putDown_flight hlane hflight)

end

end

/-! ## A small engine -/

/-- One device with two threads. -/
def sampleConfig : WorkerConfig :=
  { threads := 2, nonceStep := 2, nonceOffset := 0, deviceID := "cpu0" }

/-- A share target that every hash meets. -/
def easyTarget : Hash := Vector.replicate 32 0xff

end Otedama.Engine
