import Otedama.Engine.Work

/-! # Frames of foreign channels

A pool multiplexes channels over one connection. A frame that belongs
neither to the session's own channel nor to its group must not influence
the session: such frames should be invisible, in the sense of
noninterference, and deleting them from the input should change nothing.

The guard of the frame handler achieves this for every message type but
one. `SetNewPrevHash` is let through on every channel, although only the
group channel is a legitimate second address for it; so a tip meant for
somebody else replaces ours. What is proved is the exact extent: a
foreign frame is harmless if and only if it is not a `SetNewPrevHash`. -/

namespace Otedama.Engine

open Miner Stratum

/-- Is the frame channel-scoped and addressed neither to our channel nor to
our group? -/
def foreignScoped (opts : SessionOpts) (msg : Message) : Bool :=
  match channelIDOf msg with
  | none => false
  | some cid => cid != opts.chanID && cid != opts.groupID

/-- Is the input a frame of a foreign channel? -/
def foreignInput (opts : SessionOpts) (e : Env × Event) : Bool :=
  match e.2 with
  | .poolMsg msg => foreignScoped opts msg
  | _ => false

/-- Is the input a `SetNewPrevHash` of a foreign channel? -/
def foreignTip (opts : SessionOpts) (e : Env × Event) : Bool :=
  match e.2 with
  | .poolMsg msg => foreignScoped opts msg && msg.isSetNewPrevHash
  | _ => false

/-- Nothing that the session works with differs between `l` and `l'`. -/
structure Untouched (l l' : Loop) : Prop where
  ended : l'.session.ended = l.session.ended
  jobs : l'.session.jobs = l.session.jobs
  jobOrder : l'.session.jobOrder = l.session.jobOrder
  active : l'.session.active = l.session.active
  activeNTime : l'.session.activeNTime = l.session.activeNTime
  prevHash : l'.session.prevHash = l.session.prevHash
  prevNBits : l'.session.prevNBits = l.session.prevNBits
  havePrev : l'.session.havePrev = l.session.havePrev
  shareTarget : l'.session.shareTarget = l.session.shareTarget
  submitTimes : l'.session.submitTimes = l.session.submitTimes
  submitTargets : l'.session.submitTargets = l.session.submitTargets
  counters : l'.session.m = l.session.m
  works : l'.workers.map Worker.work = l.workers.map Worker.work

theorem Untouched.refl (l : Loop) : Untouched l l :=
  ⟨rfl, rfl, rfl, rfl, rfl, rfl, rfl, rfl, rfl, rfl, rfl, rfl, rfl⟩

/-! ## One frame -/

/-- The guard stops every foreign frame but `SetNewPrevHash`. -/
theorem foreignFrame_of_foreignScoped {opts : SessionOpts} {msg : Message}
    (hforeign : foreignScoped opts msg = true) (htip : msg.isSetNewPrevHash = false) :
    foreignFrame opts msg = true := by
  cases hcid : channelIDOf msg with
  | none => simp [foreignScoped, hcid] at hforeign
  | some cid =>
    have hne : (cid != opts.chanID) = true ∧ (cid != opts.groupID) = true := by
      simpa [foreignScoped, hcid] using hforeign
    have hgroup : (cid == opts.groupID) = false := by
      simpa using hne.2
    simp [foreignFrame, hcid, hne.1, htip, hgroup]

/-- A frame that the guard stops changes neither the session nor a worker. -/
theorem step_of_foreignFrame {opts : SessionOpts} {msg : Message}
    (hforeign : foreignFrame opts msg = true) (env : Env) (l : Loop) :
    (sessionLoop opts).step l (env, .poolMsg msg) = (l, []) := by
  show Loop.step opts l (env, .poolMsg msg) = (l, [])
  have hsession : SessionV2.step opts l.session (env, .poolMsg msg) = (l.session, []) := by
    unfold SessionV2.step
    split
    · rfl  -- the loop has returned
    · show onPoolMsg opts env l.session msg = (l.session, [])
      rw [onPoolMsg, if_pos hforeign]
  simp only [Loop.step, hsession, List.foldl_nil]

/-- A tip of any channel is taken over by a session that has none yet. -/
theorem tip_touches (opts : SessionOpts) (p : SetNewPrevHash) (env : Env) (shareTarget : Hash)
    (m : ShareMetrics) : ¬ Untouched (Loop.start shareTarget m [])
      ((sessionLoop opts).step (Loop.start shareTarget m []) (env, .poolMsg (.setNewPrevHash p))).1
    := by
  intro h
  have hprev := h.havePrev
  simp [sessionLoop, Loop.step, Loop.start, SessionV2.start, SessionV2.step, onPoolMsg,
    foreignFrame_tip, handleMsg, onSetNewPrevHash] at hprev

/-- For one foreign frame: every state is left alone exactly if it is not a
`SetNewPrevHash`. -/
theorem untouched_iff {opts : SessionOpts} {msg : Message}
    (hforeign : foreignScoped opts msg = true) :
    (∀ env l, Untouched l ((sessionLoop opts).step l (env, .poolMsg msg)).1) ↔
      msg.isSetNewPrevHash = false := by
  constructor
  · intro h
    cases msg with
    | setNewPrevHash p =>
      -- One state suffices: a session that has no tip yet.
      have hbad := tip_touches opts p calmEnv Bytes.zero32 zeroMetrics
      exact absurd (h calmEnv (Loop.start Bytes.zero32 zeroMetrics [])) hbad
    | _ => rfl
  · intro htip env l
    rw [step_of_foreignFrame (foreignFrame_of_foreignScoped hforeign htip)]
    exact .refl l

/-! ## Whole runs -/

/-- Foreign frames that are not tips can be deleted from any run. -/
theorem run_filter_foreign {opts : SessionOpts} {es : List (Env × Event)}
    (hnoTip : ∀ e ∈ es, foreignTip opts e = false) (l : Loop) :
    (sessionLoop opts).run l (es.filter fun e => !foreignInput opts e) =
        (sessionLoop opts).run l es ∧
      (sessionLoop opts).outputs l (es.filter fun e => !foreignInput opts e) =
        (sessionLoop opts).outputs l es := by
  -- Enough that each deleted input is inert in every state.
  apply Machine.run_filter_of_inert
  rintro ⟨env, ev⟩ he hkeep s
  have hforeign : foreignInput opts (env, ev) = true := by simpa using hkeep
  have hnot := hnoTip (env, ev) he
  cases ev with
  | poolMsg msg =>
    have hscoped : foreignScoped opts msg = true := hforeign
    have htip : msg.isSetNewPrevHash = false := by
      simpa [foreignTip, hscoped] using hnot
    exact step_of_foreignFrame (foreignFrame_of_foreignScoped hscoped htip) env s
  | _ => simp [foreignInput] at hforeign

/-- **Foreign-channel noninterference.**  A foreign frame leaves every state
of the session alone if and only if it is not a `SetNewPrevHash`; and
without foreign tips all foreign frames can be deleted from a run. -/
theorem foreign_frames_harmless_iff (opts : SessionOpts) :
    (∀ msg, foreignScoped opts msg = true →
      ((∀ env l, Untouched l ((sessionLoop opts).step l (env, .poolMsg msg)).1) ↔
        msg.isSetNewPrevHash = false)) ∧
    (∀ es : List (Env × Event), (∀ e ∈ es, foreignTip opts e = false) → ∀ l : Loop,
      (sessionLoop opts).run l (es.filter fun e => !foreignInput opts e) =
          (sessionLoop opts).run l es ∧
        (sessionLoop opts).outputs l (es.filter fun e => !foreignInput opts e) =
          (sessionLoop opts).outputs l es) :=
  ⟨fun _ hforeign => untouched_iff hforeign, fun _ hnoTip l => run_filter_foreign hnoTip l⟩

/-- A tip of channel 99, on which nobody has opened anything here. -/
def strayTip : SetNewPrevHash :=
  { sampleTip with channelID := 99, prevHash := Vector.replicate 32 1 }

/-- A target for channel 99. -/
def strayTarget : SetTarget := { channelID := 99, target := Vector.replicate 32 1 }

/-- A session that hashes `sampleJob`. -/
def hashingLoop : Loop :=
  (sessionLoop sampleOpts).run (Loop.start Bytes.zero32 zeroMetrics sampleWorkers)
    [(calmEnv, .poolMsg (.newMiningJob sampleJob)),
     (calmEnv, .poolMsg (.setNewPrevHash sampleTip))]

/-- A stray target is invisible and can be deleted. -/
theorem strayTarget_harmless :
    Untouched hashingLoop
      ((sessionLoop sampleOpts).step hashingLoop (calmEnv, .poolMsg (.setTarget strayTarget))).1 ∧
    (sessionLoop sampleOpts).run hashingLoop [] =
      (sessionLoop sampleOpts).run hashingLoop [(calmEnv, .poolMsg (.setTarget strayTarget))] :=
  ⟨((foreign_frames_harmless_iff sampleOpts).1 (.setTarget strayTarget) (by decide)).mpr rfl
      calmEnv hashingLoop,
    ((foreign_frames_harmless_iff sampleOpts).2 [(calmEnv, .poolMsg (.setTarget strayTarget))]
      (by decide) hashingLoop).1⟩

/-- A stray tip is taken over: the session forgets its own tip, and both
workers hash on top of a block of somebody else's channel. -/
theorem strayTip_repoints_workers :
    foreignScoped sampleOpts (.setNewPrevHash strayTip) = true ∧
      hashingLoop.session.prevHash = sampleTip.prevHash ∧
      let l := ((sessionLoop sampleOpts).step hashingLoop
        (calmEnv, .poolMsg (.setNewPrevHash strayTip))).1
      l.session.prevHash = strayTip.prevHash ∧ l.session.prevHash ≠ sampleTip.prevHash ∧
        l.workers.map (fun w => w.work.map fun work => work.header.prevHash) =
          [some strayTip.prevHash, some strayTip.prevHash] := by
  decide

end Otedama.Engine
