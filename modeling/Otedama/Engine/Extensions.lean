import Otedama.Engine.ForeignChannel
import Otedama.Stratum.Stream

/-! # Frames of protocol extensions

A frame is to be read by the pair of its extension and its message type:
the message types of the mining protocol mean what they mean under
extension 0 only. `DispatchFrame` looks at the message type alone, so a
frame of another extension is taken for the mining message that happens
to bear the same number, and one that does not decode as that message
ends the session.

What is proved is which frames of other extensions are harmless: those
that decode as a message which the session loop drops. -/

namespace Otedama.Engine

open Miner Stratum SessionV2

/-! ## Frames as inputs of the loop -/

/-- The extension type without the channel bit. -/
def extensionID (h : FrameHeader) : UInt16 := h.extensionType &&& ~~~channelMsgBit

/-- What the reader goroutine makes of a frame: the loop treats an error of
`DispatchFrame` like an error of `ReadFrame`. -/
def frameEvent (f : Frame) : Event :=
  match decodeMessage f with
  | .error _ => .poolReadError
  | .ok msg => .poolMsg msg

/-- A frame of the pool, or anything else that the loop selects on. -/
inductive Arrival where
  | frame (f : Frame)
  | other (ev : Event)
  deriving DecidableEq, Repr

def Arrival.event : Arrival → Event
  | .frame f => frameEvent f
  | .other ev => ev

/-- The session loop, with its workers, behind the frame decoder. -/
def frameLoop (opts : SessionOpts) : Machine Loop (Env × Arrival) Effect where
  step l e := Loop.step opts l (e.1, e.2.event)

/-- Is the input a frame of an extension other than the mining protocol? -/
def extensionInput (e : Env × Arrival) : Bool :=
  match e.2 with
  | .frame f => extensionID f.header != 0
  | .other _ => false

/-- The loop drops the message: it is addressed to another channel, or it is
of a type that has no place in a session. -/
def Dropped (opts : SessionOpts) (msg : Message) : Prop :=
  foreignFrame opts msg = true ∨ channelIDOf msg = none

/-- The frame decodes as a message that the loop drops. -/
def Ignored (opts : SessionOpts) (f : Frame) : Prop :=
  ∃ msg, decodeMessage f = .ok msg ∧ Dropped opts msg

/-! ## The types already warned about

They are the one trace that a dropped frame leaves, and nothing but the
warning depends on them. -/

def SessionV2.forgetSeen (s : SessionV2) : SessionV2 :=
  { s with seenUnknown := [], seenMisplaced := [] }

def Loop.forgetSeen (l : Loop) : Loop := { l with session := l.session.forgetSeen }

/-- What a turn leaves and emits, up to the warnings. -/
def observed (r : SessionV2 × List Effect) : SessionV2 × List Effect := (r.1.forgetSeen, r.2)

/-- Two turns with the same test are compared branch by branch. -/
theorem observed_ite {c : Prop} [Decidable c] {a a' b b' : SessionV2 × List Effect}
    (hthen : observed a = observed a') (helse : observed b = observed b') :
    observed (if c then a else b) = observed (if c then a' else b') := by
  by_cases hc : c
  · rw [if_pos hc, if_pos hc, hthen]
  · rw [if_neg hc, if_neg hc, helse]

theorem handleMsg_forgetSeen (env : Env) (s : SessionV2) (msg : Message) :
    observed (handleMsg env s.forgetSeen msg) = observed (handleMsg env s msg) := by
  -- Every test of a handler reads a field that is kept.
  cases msg with
  | newMiningJob j =>
    show observed (onNewMiningJob env s.forgetSeen j) = observed (onNewMiningJob env s j)
    exact observed_ite rfl rfl
  | setNewPrevHash p =>
    show observed (onSetNewPrevHash env s.forgetSeen p) = observed (onSetNewPrevHash env s p)
    have hjobs : s.forgetSeen.jobs = s.jobs := rfl
    rw [onSetNewPrevHash, onSetNewPrevHash, hjobs]
    cases s.jobs.lookup p.jobID with
    | none => rfl
    | some named => rfl
  | setTarget t =>
    simp only [handleMsg, onSetTarget, forgetSeen]
    cases s.active with
    | none => rfl
    | some j => exact observed_ite rfl rfl
  | submitSharesSuccess r =>
    show observed (onSubmitSharesSuccess env s.forgetSeen r) =
      observed (onSubmitSharesSuccess env s r)
    exact observed_ite rfl rfl
  | submitSharesError e =>
    show observed (onSubmitSharesError env s.forgetSeen e) = observed (onSubmitSharesError env s e)
    refine observed_ite rfl ?_
    have htimes : s.forgetSeen.submitTimes = s.submitTimes := rfl
    rw [htimes]
    cases s.submitTimes.lookup e.sequenceNumber with
    | none => rfl
    | some sent => rfl
  | closeChannel cc => rfl
  | unknown u =>
    simp only [handleMsg]
    split <;> split <;> rfl
  | _ =>
    simp only [handleMsg, misplacedMsgType]
    split <;> split <;> rfl

theorem step_forgetSeen (opts : SessionOpts) (s : SessionV2) (e : Env × Event) :
    observed (step opts s.forgetSeen e) = observed (step opts s e) := by
  obtain ⟨env, ev⟩ := e
  refine observed_ite rfl ?_
  cases ev with
  | poolMsg msg => exact observed_ite rfl (handleMsg_forgetSeen env s msg)
  | share sh => exact observed_ite rfl (observed_ite rfl rfl)
  | statsTick =>
    have hpair : ∀ t : SessionV2, (onStatsTick opts t, ([] : List Effect)) =
        if (opts.yieldFailover && yieldDegraded (t.m.sharesAccepted - t.startAccepted)
          (t.m.sharesRejected - t.startRejected)) = true
        then ({ t with ended := some .yieldDegraded }, []) else (t, []) :=
      fun t => apply_ite (fun t => (t, [])) _ _ _
    show observed (onStatsTick opts s.forgetSeen, []) = observed (onStatsTick opts s, [])
    rw [hpair, hpair]
    exact observed_ite rfl rfl
  | _ => rfl

/-- The loop behaves the same whatever types it has warned about. -/
theorem loop_step_forgetSeen (opts : SessionOpts) {l l' : Loop} (h : l.forgetSeen = l'.forgetSeen)
    (e : Env × Event) : (Loop.step opts l e).1.forgetSeen = (Loop.step opts l' e).1.forgetSeen ∧
      (Loop.step opts l e).2 = (Loop.step opts l' e).2 := by
  obtain ⟨hsession, hworkers⟩ := Loop.mk.inj h
  obtain ⟨hs, hout⟩ := Prod.mk.inj (step_forgetSeen opts l.session e)
  obtain ⟨hs', hout'⟩ := Prod.mk.inj (step_forgetSeen opts l'.session e)
  rw [hsession] at hs hout
  have heffects : (step opts l.session e).2 = (step opts l'.session e).2 := hout.symm.trans hout'
  refine ⟨?_, heffects⟩
  show Loop.mk (step opts l.session e).1.forgetSeen
      ((step opts l.session e).2.foldl (applyEffect opts e.1) l.workers) =
    Loop.mk (step opts l'.session e).1.forgetSeen
      ((step opts l'.session e).2.foldl (applyEffect opts e.1) l'.workers)
  rw [← hs, ← hs', heffects, hworkers]

/-- Where only the warnings differ, nothing is touched. -/
theorem untouched_of_forgetSeen {l l' : Loop} (h : l'.forgetSeen = l.forgetSeen) :
    Untouched l l' := by
  obtain ⟨hsession, hworkers⟩ := Loop.mk.inj h
  obtain ⟨hjobs, hjobOrder, hactive, hactiveNTime, hprevHash, hprevNBits, hhavePrev, hshareTarget,
    -, hsubmitTimes, hsubmitTargets, -, -, -, -, hm, hended⟩ := mk.inj hsession
  exact ⟨hended, hjobs, hjobOrder, hactive, hactiveNTime, hprevHash, hprevNBits, hhavePrev,
    hshareTarget, hsubmitTimes, hsubmitTargets, hm, by rw [hworkers]⟩

/-! ## One frame -/

/-- A message that is dropped leaves at most a warning behind. -/
theorem step_of_dropped {opts : SessionOpts} {msg : Message} (h : Dropped opts msg) (env : Env)
    (l : Loop) : (Loop.step opts l (env, .poolMsg msg)).1.forgetSeen = l.forgetSeen ∧
      (Loop.step opts l (env, .poolMsg msg)).2 = [] := by
  have hsession : (step opts l.session (env, .poolMsg msg)).1.forgetSeen = l.session.forgetSeen ∧
      (step opts l.session (env, .poolMsg msg)).2 = [] := by
    unfold step
    split
    · exact ⟨rfl, rfl⟩
    · show (onPoolMsg opts env l.session msg).1.forgetSeen = _ ∧
        (onPoolMsg opts env l.session msg).2 = []
      unfold onPoolMsg
      split
      · exact ⟨rfl, rfl⟩
      · next hguard =>
        have hnone : channelIDOf msg = none := h.resolve_left hguard
        cases msg with
        | unknown u =>
          refine ⟨?_, rfl⟩
          show (if u.msgType ∈ l.session.seenUnknown then _ else _ : SessionV2).forgetSeen = _
          split <;> rfl
        | newMiningJob | setNewPrevHash | setTarget | submitSharesSuccess | submitSharesError
        | closeChannel => cases hnone
        | _ =>
          refine ⟨?_, rfl⟩
          show (if _ ∈ l.session.seenMisplaced then _ else _ : SessionV2).forgetSeen = _
          split <;> rfl
  obtain ⟨hs, hout⟩ := hsession
  refine ⟨?_, hout⟩
  show Loop.mk (step opts l.session (env, .poolMsg msg)).1.forgetSeen
    ((step opts l.session (env, .poolMsg msg)).2.foldl (applyEffect opts env) l.workers) = _
  rw [hs, hout]
  rfl

/-- A message that is not dropped shows in some state of the loop. -/
theorem exists_touched {opts : SessionOpts} {msg : Message} (h : ¬ Dropped opts msg) :
    ∃ l, ¬ Untouched l (Loop.step opts l (calmEnv, .poolMsg msg)).1 := by
  have hguard : foreignFrame opts msg = false := Bool.eq_false_iff.mpr (not_or.mp h).1
  have hchannel : channelIDOf msg ≠ none := (not_or.mp h).2
  have hsession : ∀ s : SessionV2, s.ended = none → ∀ workers,
      (Loop.step opts ⟨s, workers⟩ (calmEnv, .poolMsg msg)).1.session =
        (handleMsg calmEnv s msg).1 := by
    intro s hlive workers
    show (step opts s _).1 = _
    rw [step_poolMsg hlive calmEnv hguard]
  let s₀ := start Bytes.zero32 zeroMetrics
  cases msg with
  | newMiningJob j =>
    refine ⟨⟨s₀, []⟩, fun htouch => ?_⟩
    have horder := htouch.jobOrder
    rw [hsession s₀ rfl] at horder
    simp [handleMsg, onNewMiningJob, s₀, start, storeBoundedJob, evictOldest, jobsCap]
      at horder
  | setNewPrevHash p => exact ⟨_, tip_touches opts p calmEnv Bytes.zero32 zeroMetrics⟩
  | setTarget t =>
    -- A session that grinds to another target.
    obtain ⟨u, hu⟩ : ∃ u : Hash, u ≠ t.target := by
      by_cases hzero : Bytes.zero32 = t.target
      · exact ⟨Vector.replicate 32 1, by rw [← hzero]; decide⟩
      · exact ⟨Bytes.zero32, hzero⟩
    refine ⟨⟨start u zeroMetrics, []⟩, fun htouch => ?_⟩
    have htarget := htouch.shareTarget
    rw [hsession _ rfl] at htarget
    exact hu htarget.symm
  | submitSharesSuccess r =>
    -- A session with one submit, which the message settles.
    let s : SessionV2 :=
      { s₀ with
        seqNum := r.lastSequenceNumber
        submitTimes := AList.singleton r.lastSequenceNumber 0 }
    refine ⟨⟨s, []⟩, fun htouch => ?_⟩
    have htimes := htouch.submitTimes
    rw [hsession s rfl] at htimes
    simp [handleMsg, onSubmitSharesSuccess, s, settleUpTo, settleOne, GoMap.erase_singleton_ne]
      at htimes
  | submitSharesError e =>
    let s : SessionV2 :=
      { s₀ with
        seqNum := e.sequenceNumber
        submitTimes := AList.singleton e.sequenceNumber 0 }
    refine ⟨⟨s, []⟩, fun htouch => ?_⟩
    have hsent : s.submitTimes.lookup e.sequenceNumber = some 0 := GoMap.lookup_singleton _ _
    have htimes := htouch.submitTimes
    rw [hsession s rfl] at htimes
    simp [handleMsg, onSubmitSharesError, hsent, s, GoMap.erase_singleton_ne] at htimes
  | closeChannel cc =>
    refine ⟨⟨s₀, []⟩, fun htouch => ?_⟩
    have hended := htouch.ended
    rw [hsession s₀ rfl] at hended
    cases hended
  | _ => exact absurd rfl hchannel

/-- For one frame: every state is left alone exactly if the frame is ignored. -/
theorem ignored_iff (opts : SessionOpts) (f : Frame) :
    (∀ env l, Untouched l ((frameLoop opts).step l (env, .frame f)).1) ↔ Ignored opts f := by
  show (∀ env l, Untouched l (Loop.step opts l (env, frameEvent f)).1) ↔ _
  unfold frameEvent Ignored
  cases decodeMessage f with
  | error e =>
    -- A session that goes on is ended.
    constructor
    · intro h
      have hended := (h calmEnv (Loop.start Bytes.zero32 zeroMetrics [])).ended
      cases hended
    · intro h
      obtain ⟨msg, hmsg, -⟩ := h
      cases hmsg
  | ok msg =>
    constructor
    · intro h
      refine ⟨msg, rfl, ?_⟩
      by_contra hacts
      obtain ⟨l, hl⟩ := exists_touched hacts
      exact hl (h calmEnv l)
    · intro h env l
      obtain ⟨msg', hmsg, hdropped⟩ := h
      obtain rfl : msg = msg' := Except.ok.inj hmsg
      exact untouched_of_forgetSeen (step_of_dropped hdropped env l).1

/-! ## Whole runs -/

/-- Frames that are ignored can be deleted from any run. -/
theorem run_filter_extension {opts : SessionOpts} {es : List (Env × Arrival)}
    (hignored : ∀ env f, (env, .frame f) ∈ es → extensionID f.header ≠ 0 → Ignored opts f)
    (l : Loop) : Untouched ((frameLoop opts).run l (es.filter fun e => !extensionInput e))
      ((frameLoop opts).run l es) := by
  have hrule := (frameLoop opts).run_filter_of_unobserved Loop.forgetSeen
    (fun e => !extensionInput e) es ?_ ?_ l l rfl
  · exact untouched_of_forgetSeen hrule.1.symm
  · intro l l' e h
    exact loop_step_forgetSeen opts h (e.1, e.2.event)
  · intro e he hkeep l
    obtain ⟨env, a⟩ := e
    cases a with
    | frame f =>
      have hext : extensionID f.header ≠ 0 := by simpa [extensionInput] using hkeep
      obtain ⟨msg, hmsg, hdropped⟩ := hignored env f he hext
      show (Loop.step opts l (env, frameEvent f)).1.forgetSeen = _ ∧
        (Loop.step opts l (env, frameEvent f)).2 = []
      rw [show frameEvent f = .poolMsg msg by rw [frameEvent, hmsg]]
      exact step_of_dropped hdropped env l
    | other ev => simp [extensionInput] at hkeep

/-- **Which frames of other extensions are inert.**  Suppose that a pool sends
such frames from `allowed` only. They can be deleted from every run
without touching the session or its workers if and only if each of them
decodes as a message that the loop drops. -/
theorem extension_frames_inert_iff (opts : SessionOpts) (allowed : Frame → Prop) :
    (∀ (l : Loop) (es : List (Env × Arrival)),
      (∀ env f, (env, .frame f) ∈ es → extensionID f.header ≠ 0 → allowed f) →
      Untouched ((frameLoop opts).run l (es.filter fun e => !extensionInput e))
        ((frameLoop opts).run l es)) ↔
    ∀ f, extensionID f.header ≠ 0 → allowed f → Ignored opts f := by
  constructor
  · intro h f hext hallowed
    rw [← ignored_iff]
    intro env l
    -- The run over this one frame, against the run over none.
    have hone := h l [(env, .frame f)] (by simp [hallowed])
    rw [show [(env, Arrival.frame f)].filter (fun e => !extensionInput e) = [] by
      simp [extensionInput, hext]] at hone
    exact hone
  · intro h l es hallowed
    exact run_filter_extension (fun env f he hext => h f hext (hallowed env f he hext)) l

/-- A frame of extension 1, on a channel, with the message type of `SetTarget`
and a payload that decodes as one for channel 7. -/
def extensionTarget : Frame :=
  { header := ⟨channelMsgBit ||| 1, MsgType.setTarget.code, 36⟩
    payload := [7, 0, 0, 0] ++ List.replicate 32 1 }

/-- A frame of extension 1 with the message type of `NewMiningJob` and an
empty payload. -/
def extensionEmpty : Frame := { header := ⟨1, MsgType.newMiningJob.code, 0⟩, payload := [] }

/-- Deleting the one leaves the session with its own share target, deleting
the other leaves it running. -/
theorem extension_frames_act :
    let mine := fun e : Env × Arrival => !extensionInput e
    let target : List (Env × Arrival) := [(calmEnv, .frame extensionTarget)]
    let empty : List (Env × Arrival) := [(calmEnv, .frame extensionEmpty)]
    extensionTarget.header.validate = .ok () ∧ extensionEmpty.header.validate = .ok () ∧
      extensionID extensionTarget.header = 1 ∧ extensionID extensionEmpty.header = 1 ∧
      ((frameLoop sampleOpts).run hashingLoop target).session.shareTarget ≠
        ((frameLoop sampleOpts).run hashingLoop (target.filter mine)).session.shareTarget ∧
      ((frameLoop sampleOpts).run hashingLoop target).workers.map
          (fun w => w.work.map Work.target) =
        [some (Vector.replicate 32 1), some (Vector.replicate 32 1)] ∧
      ((frameLoop sampleOpts).run hashingLoop empty).session.ended = some .poolRead ∧
      ((frameLoop sampleOpts).run hashingLoop (empty.filter mine)).session.ended = none := by
  decide +kernel

end Otedama.Engine
