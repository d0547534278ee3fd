import Otedama.Engine.Connect
import Otedama.Poolproto.StratumV2

/-! # The engine and the Stratum V2 adapter

Stratum V2 is written twice: in the engine's own session loop, and in the
adapter that is to take its place. This file compares the two.

* The handshakes. The adapter does not look at the version that the pool
  chose, and takes pools that the engine refuses.
* The jobs. A tip that names an unknown job makes the engine stop; the
  adapter emits nothing, and whoever reads its jobs goes on with the old
  one. -/

namespace Otedama.Engine

open Stratum Poolproto
open Poolproto.V2 (setupMsg openMsg formatUint readLoop Sv2JobAssembler)

/-! ## The two handshakes -/

/-- What the engine reads for a frame of the pool. -/
def replyOf (f : Frame) : Reply :=
  match decodeMessage f with
  | .error _ => .dispatchError
  | .ok msg => .frame f.header.msgType msg

/-- A pool that answers with these frames, on a connection that works. The
engine sends what the adapter sends, but for the hash rate. -/
def answering (host user : GoString) (nominalHashrate : UInt32) (setup channel : Frame) : Peer where
  dialed := true
  sentSetup := (V2.sendMsg .setupConnection (setupMsg host)).isOk
  setup := replyOf setup
  sentOpen := (V2.sendMsg .openMiningChannel (openMsg user nominalHashrate)).isOk
  channel := replyOf channel
  subscribe := none
  authorize := none
  loopEnd := .ctxDone
  loopEndV1 := .ctxDone

theorem isOk_eq_true {ε : Type} {x : Except ε Unit} : x.isOk = true ↔ x = .ok () := by
  cases x with
  | error e => simp [Except.isOk, Except.toBool]
  | ok u => simp [Except.isOk, Except.toBool]

theorem setupConnection_eq_ok {sc : Offer} {p : Peer} :
    setupConnection sc p = .ok () ↔ p.sentSetup = true ∧ p.setup.acceptsOffer sc = true := by
  rcases setupConnection_cases sc p with ⟨hok, hsent, haccepts, -⟩ | ⟨e, herr, -, hno⟩
  · exact iff_of_true hok ⟨hsent, haccepts⟩
  · rw [herr, ← Bool.and_eq_true, hno]
    simp

theorem openMiningChannel_eq_ok {reqID : UInt32} {p : Peer} {m : OpenMiningChannelSuccess} :
    openMiningChannel reqID p = .ok m ↔
      p.sentOpen = true ∧ (∃ mt, p.channel = .frame mt (.openMiningChannelSuccess m)) ∧
        m.reqID = reqID := by
  unfold openMiningChannel
  cases p.sentOpen with
  | false => simp
  | true =>
    rw [if_neg (by simp)]
    cases p.channel with
    | readError => simp
    | dispatchError => simp
    | frame mt msg =>
      cases msg with
      | openMiningChannelSuccess x =>
        dsimp only
        by_cases hreq : x.reqID = reqID
        · rw [if_neg (not_not.mpr hreq)]
          constructor
          · intro h
            cases h
            exact ⟨rfl, ⟨mt, rfl⟩, hreq⟩
          · intro h
            obtain ⟨-, ⟨_, hx⟩, -⟩ := h
            cases hx
            rfl
        · rw [if_pos hreq]
          constructor
          · intro h
            cases h
          · intro h
            obtain ⟨-, ⟨_, hx⟩, hm⟩ := h
            cases hx
            exact absurd hm hreq
      | _ => simp

theorem replyOf_eq_frame {f : Frame} {mt : UInt8} {msg : Message} :
    replyOf f = .frame mt msg ↔ decodeMessage f = .ok msg ∧ f.header.msgType = mt := by
  unfold replyOf
  cases decodeMessage f with
  | error e => simp
  | ok x => simp [and_comm]

theorem acceptsOffer_replyOf {f : Frame} : (replyOf f).acceptsOffer setupOffer = true ↔
      ∃ m, decodeMessage f = .ok (.setupConnectionSuccess m) ∧ m.usedVersion = 2 ∧ m.flags = 0 := by
  unfold replyOf
  cases decodeMessage f with
  | error e => simp [Reply.acceptsOffer]
  | ok msg =>
    cases msg with
    | setupConnectionSuccess m =>
      -- The range offered is the one version.
      have hversion : (2 ≤ m.usedVersion ∧ m.usedVersion ≤ 2) ↔ m.usedVersion = 2 :=
        ⟨fun h => UInt16.le_antisymm h.2 h.1, fun h => by simp [h]⟩
      have haccepts : (Reply.frame f.header.msgType (.setupConnectionSuccess m)).acceptsOffer
          setupOffer = true ↔ (2 ≤ m.usedVersion ∧ m.usedVersion ≤ 2) ∧ m.flags = 0 := by
        unfold Reply.acceptsOffer
        simp only [Bool.and_eq_true, decide_eq_true_eq, beq_iff_eq]
        show _ ∧ m.flags &&& ~~~0 = 0 ↔ _
        rw [show m.flags &&& ~~~0 = m.flags by simp]
        rfl
      dsimp only
      rw [haccepts, hversion]
      simp
    | _ => simp [Reply.acceptsOffer]

/-- The handshake of the engine, without the order of its tests. -/
theorem handshake_answering_eq_ok {host user : GoString} {rate : UInt32} {setup channel : Frame}
    {chanID : UInt32} : (∃ opened, handshake (answering host user rate setup channel) = .ok opened ∧
        opened.1 = chanID) ↔ host.length ≤ 255 ∧ user.length ≤ 255 ∧
      (∃ m, decodeMessage setup = .ok (.setupConnectionSuccess m) ∧ m.usedVersion = 2 ∧
        m.flags = 0) ∧
      ∃ m, decodeMessage channel = .ok (.openMiningChannelSuccess m) ∧ m.reqID = 1 ∧
        m.channelID = chanID := by
  have hsetup : setupConnection setupOffer (answering host user rate setup channel) = .ok () ↔
      host.length ≤ 255 ∧ ∃ m, decodeMessage setup = .ok (.setupConnectionSuccess m) ∧
        m.usedVersion = 2 ∧ m.flags = 0 := by
    rw [setupConnection_eq_ok]
    exact and_congr (isOk_eq_true.trans V2.sendSetup_eq_ok) acceptsOffer_replyOf
  have hopen : ∀ m, openMiningChannel openReqID (answering host user rate setup channel) = .ok m ↔
      user.length ≤ 255 ∧ decodeMessage channel = .ok (.openMiningChannelSuccess m) ∧
        m.reqID = 1 := by
    intro m
    rw [openMiningChannel_eq_ok]
    refine and_congr (isOk_eq_true.trans V2.sendOpen_eq_ok) (and_congr_left fun _ => ?_)
    show (∃ mt, replyOf channel = _) ↔ _
    simp only [replyOf_eq_frame, exists_and_left, exists_eq', and_true]
  unfold handshake
  constructor
  · intro h
    obtain ⟨opened, hok, hchan⟩ := h
    obtain ⟨_, hs, hrest⟩ := Reader.bind_eq_ok.mp hok
    obtain ⟨m, hm, hpair⟩ := Reader.bind_eq_ok.mp hrest
    obtain ⟨hhost, hversion⟩ := hsetup.mp hs
    obtain ⟨huser, hdecode, hreq⟩ := (hopen m).mp hm
    cases hpair
    exact ⟨hhost, huser, hversion, m, hdecode, hreq, hchan⟩
  · intro h
    obtain ⟨hhost, huser, hversion, m, hdecode, hreq, hchan⟩ := h
    refine ⟨(m.channelID, m.groupChannelID, m.target), ?_, hchan⟩
    rw [hsetup.mpr ⟨hhost, hversion⟩, (hopen m).mpr ⟨huser, hdecode, hreq⟩]
    rfl

/-- The pool accepts everything, under a version that was not offered. -/
def VersionGap (host user : GoString) (setup channel : Frame) : Prop :=
  host.length ≤ 255 ∧ user.length ≤ 255 ∧
    (∃ m, decodeMessage setup = .ok (.setupConnectionSuccess m) ∧ m.usedVersion ≠ 2 ∧
      m.flags = 0) ∧
    ∃ m, decodeMessage channel = .ok (.openMiningChannelSuccess m) ∧ m.reqID = 1

/-- **Where the handshakes differ.**  The adapter has a session on a channel
exactly when the engine has one on that channel, unless the pool chooses
a version that neither of them offered. -/
theorem handshakes_agree_iff (host user : GoString) (rate : UInt32) (setup channel : Frame) :
    (∀ chanID, V2.negotiate host user setup channel = .ok chanID ↔
      ∃ opened, handshake (answering host user rate setup channel) = .ok opened ∧
        opened.1 = chanID) ↔
    ¬ VersionGap host user setup channel := by
  simp only [V2.negotiate_eq_ok, handshake_answering_eq_ok]
  constructor
  · intro h hgap
    obtain ⟨hhost, huser, ⟨s, hs, hversion, hflags⟩, m, hm, hreq⟩ := hgap
    have hengine := (h m.channelID).mp ⟨hhost, huser, ⟨s, hs, hflags⟩, m, hm, hreq, rfl⟩
    obtain ⟨-, -, ⟨s', hs', htwo, -⟩, -⟩ := hengine
    rw [hs] at hs'
    cases hs'
    exact hversion htwo
  · intro hgap chanID
    constructor
    · intro h
      obtain ⟨hhost, huser, ⟨s, hs, hflags⟩, m, hm, hreq, hchan⟩ := h
      have htwo : s.usedVersion = 2 := by
        by_contra hversion
        exact hgap ⟨hhost, huser, ⟨s, hs, hversion, hflags⟩, m, hm, hreq⟩
      exact ⟨hhost, huser, ⟨s, hs, htwo, hflags⟩, m, hm, hreq, hchan⟩
    · intro h
      obtain ⟨hhost, huser, ⟨s, hs, -, hflags⟩, hchannel⟩ := h
      exact ⟨hhost, huser, ⟨s, hs, hflags⟩, hchannel⟩

/-- `SetupConnectionSuccess` with version 3. -/
def versionThree : Frame :=
  { header := ⟨0, MsgType.setupConnectionSuccess.code, 6⟩, payload := [3, 0, 0, 0, 0, 0] }

/-- `OpenMiningChannelSuccess` for channel 7. -/
def channelSeven : Frame :=
  { header := ⟨0, MsgType.openMiningChannelSuccess.code, 45⟩
    payload := [1, 0, 0, 0, 7, 0, 0, 0] ++ List.replicate 32 0xff ++ [0, 3, 0, 0, 0] }

/-- A pool that chooses version 3 gets a session with the adapter and none
with the engine. -/
theorem versionThree_divides :
    V2.negotiate [] [] versionThree channelSeven = .ok 7 ∧
      handshake (answering [] [] 0 versionThree channelSeven) = .error (.version 3) := by
  decide +kernel

/-! ## The two job loops -/

/-- The frames among the inputs of the session loop. -/
def poolMsgs (es : List (Env × Event)) : List Message :=
  es.filterMap fun e =>
    match e.2 with
    | .poolMsg msg => some msg
    | _ => none

/-- A job on our own channel, or a tip. -/
def WorkFrame (opts : SessionOpts) (e : Env × Event) : Prop :=
  (∃ j, j.channelID = opts.chanID ∧ e.2 = .poolMsg (.newMiningJob j)) ∨
    ∃ p, e.2 = .poolMsg (.setNewPrevHash p)

/-- A job of the adapter is the job `j` on the tip of the engine. -/
structure SameWork (s : SessionV2) (j : NewMiningJob) (job : Job) : Prop where
  jobID : job.jobID = formatUint j.jobID
  version : job.version = j.version
  merkleRoot : job.merkleRoot = j.merkleRoot
  prevHash : job.prevHash = s.prevHash
  nBits : job.nBits = s.prevNBits
  nTime : job.nTime = s.activeNTime

/-- What the engine mines is what the reader of the adapter mines, where
`last` is the job it emitted last. -/
def Mirrors (s : SessionV2) (last : Option Job) : Prop :=
  match last with
  | none => s.active = none
  | some job => ∃ j, s.active = some j ∧ SameWork s j job

/-- The state of the assembler is part of the state of the session. -/
structure Synced (a : Sv2JobAssembler) (s : SessionV2) : Prop where
  live : s.ended = none
  pending : a.pending = s.jobs
  pendingOrder : a.pendingOrder = s.jobOrder
  prevHash : a.prevHash = s.prevHash
  prevNBits : a.prevNBits = s.prevNBits
  havePrev : a.havePrev = s.havePrev

/-- The two eviction loops are one. -/
theorem evict_eq_evictOldest (jobs : GoMap UInt32 NewMiningJob) (order : List UInt32) :
    V2.evict jobs order = evictOldest jobs order := by
  induction order generalizing jobs with
  | nil => rfl
  | cons id order ih =>
    unfold V2.evict evictOldest
    rw [ih]
    rfl

section

variable {a : Sv2JobAssembler} {s : SessionV2}

/-- A job that one holds back is held back by the other. -/
theorem Synced.newMiningJob (h : Synced a s) (env : Env) (j : NewMiningJob) :
    Synced (a.onNewMiningJob j).1 (onNewMiningJob env s j).1 ∧ ∀ last, Mirrors s last →
        Mirrors (onNewMiningJob env s j).1 ((a.onNewMiningJob j).2.getLast?.or last) := by
  have hstored : V2.evict (a.pending.insert j.jobID j)
      (if j.jobID ∈ a.pending then a.pendingOrder else a.pendingOrder ++ [j.jobID]) =
      storeBoundedJob s.jobs s.jobOrder j := by
    rw [evict_eq_evictOldest, h.pending, h.pendingOrder]
    rfl
  unfold Sv2JobAssembler.onNewMiningJob onNewMiningJob
  dsimp only
  rw [hstored, h.havePrev]
  by_cases hnow : (j.hasNtimeStart && s.havePrev) = true
  · rw [if_pos hnow, if_pos hnow]
    refine ⟨⟨h.live, rfl, rfl, h.prevHash, h.prevNBits, rfl⟩, fun _ _ => ?_⟩
    exact ⟨j, rfl, rfl, rfl, rfl, h.prevHash, h.prevNBits, rfl⟩
  · rw [if_neg hnow, if_neg hnow]
    refine ⟨⟨h.live, rfl, rfl, h.prevHash, h.prevNBits, rfl⟩, fun last hmirrors => ?_⟩
    cases last with
    | none => exact hmirrors
    | some job =>
      obtain ⟨j', hactive, hsame⟩ := hmirrors
      exact ⟨j', hactive, ⟨hsame.jobID, hsame.version, hsame.merkleRoot, hsame.prevHash,
        hsame.nBits, hsame.nTime⟩⟩

/-- A tip keeps the two together unless the engine stops on it. -/
theorem Synced.setNewPrevHash (h : Synced a s) (env : Env) (p : SetNewPrevHash) :
    Synced (a.onSetNewPrevHash p).1 (onSetNewPrevHash env s p).1 ∧ ∀ last, Mirrors s last →
        (Mirrors (onSetNewPrevHash env s p).1 ((a.onSetNewPrevHash p).2.getLast?.or last) ↔
          p.jobID ∈ s.jobs ∨ s.active = none) := by
  unfold Sv2JobAssembler.onSetNewPrevHash onSetNewPrevHash
  rw [h.pending]
  cases hnamed : s.jobs.lookup p.jobID with
  | some named =>
    have hmem : p.jobID ∈ s.jobs := GoMap.mem_of_lookup hnamed
    refine ⟨⟨h.live, rfl, rfl, rfl, rfl, rfl⟩, fun _ _ => iff_of_true ?_ (.inl hmem)⟩
    exact ⟨named, rfl, rfl, rfl, rfl, rfl, rfl, rfl⟩
  | none =>
    have hnot : p.jobID ∉ s.jobs := AList.lookup_eq_none.mp hnamed
    refine ⟨⟨h.live, rfl, rfl, rfl, rfl, rfl⟩, fun last hmirrors => ?_⟩
    rw [or_iff_right hnot]
    -- The engine has no job now, and the adapter emitted nothing.
    cases last with
    | none => exact iff_of_true rfl hmirrors
    | some job =>
      obtain ⟨j, hactive, -⟩ := hmirrors
      refine iff_of_false ?_ (by simp [hactive])
      intro hmirrors'
      obtain ⟨j', hnone, -⟩ := hmirrors'
      cases hnone

end

/-- A tip names a job that arrived, or there is none to go on with. -/
def KeepsMirror (s : SessionV2) (e : Env × Event) : Prop :=
  match e.2 with
  | .poolMsg (.setNewPrevHash p) => p.jobID ∈ s.jobs ∨ s.active = none
  | _ => True

/-- **The adapter mirrors the engine, and when it does not.**  Over any
sequence of jobs on our channel and tips, the job that the adapter emitted
last is the active job of the engine after every message if and only if
no tip names an unknown job while the engine mines. -/
theorem adapter_mirrors_iff (opts : SessionOpts) (target : Miner.Hash) (m : ShareMetrics)
    (es : List (Env × Event)) (hwork : ∀ e ∈ es, WorkFrame opts e) :
    (∀ pre, pre <+: es →
      Mirrors ((runSession opts).run (SessionV2.start target m) pre)
        (readLoop.outputs .init (poolMsgs pre)).getLast?) ↔
    (runSession opts).Meets KeepsMirror (SessionV2.start target m) es := by
  -- One more frame is one more message for the adapter.
  have hsnoc : ∀ (hist : List (Env × Event)) env msg,
      poolMsgs (hist ++ [(env, .poolMsg msg)]) = poolMsgs hist ++ [msg] := by
    intro hist env msg
    simp [poolMsgs]
  have hlast : ∀ hist msg, (readLoop.outputs .init (poolMsgs hist ++ [msg])).getLast? =
      (readLoop.step (readLoop.run .init (poolMsgs hist)) msg).2.getLast?.or
        (readLoop.outputs .init (poolMsgs hist)).getLast? := by
    intro hist msg
    rw [Machine.outputs_append, List.getLast?_append, Machine.outputs_cons, Machine.outputs_nil,
      List.append_nil]
  refine (runSession opts).run_exact
    (A := fun hist s => Synced (readLoop.run .init (poolMsgs hist)) s)
    (P := fun hist s => Mirrors s (readLoop.outputs .init (poolMsgs hist)).getLast?)
    (C := KeepsMirror) (Q := WorkFrame opts) ?_ ?_ ?_ ?_ es hwork
  · exact ⟨rfl, rfl, rfl, rfl, rfl, rfl⟩
  · show (SessionV2.start target m).active = none
    rfl
  · intro hist s e hwork hsynced
    obtain ⟨env, ev⟩ := e
    rcases hwork with ⟨j, hown, rfl⟩ | ⟨p, rfl⟩
    · show Synced _ (SessionV2.step opts s _).1
      rw [hsnoc, Machine.run_append,
        SessionV2.step_poolMsg hsynced.live env (foreignFrame_own (hown ▸ rfl))]
      exact (hsynced.newMiningJob env j).1
    · show Synced _ (SessionV2.step opts s _).1
      rw [hsnoc, Machine.run_append,
        SessionV2.step_poolMsg hsynced.live env (foreignFrame_tip opts p)]
      exact (hsynced.setNewPrevHash env p).1
  · intro hist s e hwork hsynced hmirrors
    obtain ⟨env, ev⟩ := e
    rcases hwork with ⟨j, hown, rfl⟩ | ⟨p, rfl⟩
    · show Mirrors (SessionV2.step opts s _).1 _ ↔ _
      rw [hsnoc, hlast, SessionV2.step_poolMsg hsynced.live env (foreignFrame_own (hown ▸ rfl))]
      exact iff_of_true ((hsynced.newMiningJob env j).2 _ hmirrors) trivial
    · show Mirrors (SessionV2.step opts s _).1 _ ↔ _
      rw [hsnoc, hlast, SessionV2.step_poolMsg hsynced.live env (foreignFrame_tip opts p)]
      exact (hsynced.setNewPrevHash env p).2 _ hmirrors

/-- A job and the tip that names it. -/
def mirroredFrames : List (Env × Event) :=
  [(calmEnv, .poolMsg (.newMiningJob sampleJob)), (calmEnv, .poolMsg (.setNewPrevHash sampleTip))]

/-- Both are on the job. -/
theorem mirroredFrames_mirror :
    ((runSession sampleOpts).run (SessionV2.start Bytes.zero32 zeroMetrics) mirroredFrames).active =
        some sampleJob ∧
      Mirrors ((runSession sampleOpts).run (SessionV2.start Bytes.zero32 zeroMetrics) mirroredFrames)
        (readLoop.outputs .init (poolMsgs mirroredFrames)).getLast? := by
  refine ⟨rfl, ?_⟩
  have hwork : ∀ e ∈ mirroredFrames, WorkFrame sampleOpts e := by
    simp [mirroredFrames, WorkFrame, sampleJob, sampleOpts]
  refine (adapter_mirrors_iff sampleOpts Bytes.zero32 zeroMetrics mirroredFrames hwork).mpr ?_
    mirroredFrames (List.prefix_refl _)
  exact ⟨trivial, .inr rfl, trivial⟩

/-- A tip that names a job which never arrived: the engine stops, and the last
job of the adapter stands, on the old tip. -/
theorem unknownTip_divides :
    let frames : List (Env × Event) :=
      mirroredFrames ++ [(calmEnv, .poolMsg (.setNewPrevHash { sampleTip with jobID := 2 }))]
    ((runSession sampleOpts).run (SessionV2.start Bytes.zero32 zeroMetrics) frames).active = none ∧
      ((readLoop.outputs .init (poolMsgs frames)).getLast?.map fun job => job.jobID) =
        some (formatUint 1) ∧
      ¬ Mirrors ((runSession sampleOpts).run (SessionV2.start Bytes.zero32 zeroMetrics) frames)
        (readLoop.outputs .init (poolMsgs frames)).getLast? := by
  intro frames
  have hactive : ((runSession sampleOpts).run (SessionV2.start Bytes.zero32 zeroMetrics)
      frames).active = none := rfl
  refine ⟨hactive, rfl, ?_⟩
  intro hmirrors
  obtain ⟨j, hsome, -⟩ := hmirrors
  rw [hactive] at hsome
  cases hsome

end Otedama.Engine
