import Otedama.Engine.SessionV1
import Otedama.Engine.ShareAccounting

/-! # Verdicts that outlive their session

A Stratum V1 session submits each share in a goroutine of its own, and
such a goroutine may get its answer after the session has ended. It then
still counts the verdict, in counters that live as long as the engine.
A Stratum V2 session that follows takes a snapshot of these counters and
judges its pool by what was added since, so late verdicts on shares of
the old pool are held against the new one, or in its favour.

A `Handover` is a V2 session together with the goroutines left over from
the session before it. Its runs start with the snapshot; what was counted
before is part of the counters at the start. The two loads of a snapshot,
and the two loads of a tick, are taken together. Nothing is lost by that:
a verdict changes one of the two counters only, so one that comes between
the loads has the effect of one that comes before both or after both. -/

namespace Otedama.Engine

open Miner Stratum

/-! ## Tallies -/

/-- Numbers of verdicts. -/
structure Tally where
  accepted : Nat
  rejected : Nat
  deriving DecidableEq, Repr

namespace Tally

instance : Zero Tally := ⟨⟨0, 0⟩⟩

instance : Add Tally := ⟨fun a b => ⟨a.accepted + b.accepted, a.rejected + b.rejected⟩⟩

@[simp] theorem accepted_add (a b : Tally) : (a + b).accepted = a.accepted + b.accepted := rfl

@[simp] theorem rejected_add (a b : Tally) : (a + b).rejected = a.rejected + b.rejected := rfl

/-- `yieldDegraded` of a tally. -/
def degraded (t : Tally) : Bool := yieldDegraded t.accepted t.rejected

end Tally

/-- The rejects that count: a reject which only a retarget explains does not. -/
def rejectTally (transition : Bool) : Tally := if transition then 0 else ⟨0, 1⟩

/-- The verdicts that a turn of the V2 loop receives on shares of its own
session: those which a frame of the pool settles, whatever the counters
of the engine say. -/
def ownVerdicts (opts : SessionOpts) (s : SessionV2) (ev : Event) : Tally :=
  match ev with
  | .poolMsg (.submitSharesSuccess r) =>
      if s.ended.isSome || foreignFrame opts (.submitSharesSuccess r) ||
          s.seqNum < r.lastSequenceNumber then 0
      else
        let settled := s.submitTimes.keys.filter (· ≤ r.lastSequenceNumber)
        ⟨creditedSubmits r.newSubmitsAccepted settled.length, 0⟩
  | .poolMsg (.submitSharesError e) =>
      if s.ended.isSome || foreignFrame opts (.submitSharesError e) ||
          s.seqNum < e.sequenceNumber then 0
      else if e.sequenceNumber ∈ s.submitTimes then
        rejectTally ((s.submitTargets.lookup e.sequenceNumber).any fun issued =>
          transitionReject (rejectClass (Poolproto.sanitizePoolText e.error)) issued s.shareTarget)
      else 0
  | _ => 0

/-- What the verdict of a V1 submit adds to the counters. -/
def Verdict.tally : Verdict → Tally
  | .failed => 0
  | .accepted => ⟨1, 0⟩
  | .rejected reason target suggested =>
      rejectTally ((v1ShareTarget suggested).any
        (transitionReject (rejectClass (Poolproto.sanitizePoolText reason)) target))

/-! ## The handover -/

structure Handover where
  /-- Submit goroutines of the earlier V1 session that have no answer yet. -/
  inFlight : Nat
  session : SessionV2
  /-- Verdicts on shares of this session. -/
  own : Tally
  /-- Verdicts of left-over goroutines since the snapshot. -/
  late : Tally

inductive HandoverMove where
  /-- The V2 loop makes a turn. -/
  | turn (env : Env) (ev : Event)
  /-- A left-over goroutine gets its answer. -/
  | verdict (v : Verdict)

/-- The V2 session takes its snapshot of the counters `m`. -/
def Handover.start (inFlight : Nat) (shareTarget : Hash) (m : ShareMetrics) : Handover where
  inFlight := inFlight
  session := SessionV2.start shareTarget m
  own := 0
  late := 0

/-- The counters after a submit goroutine is done. What it adds to the
variables of its own session is seen by nobody any more. -/
def countVerdict (m : ShareMetrics) (v : Verdict) : ShareMetrics :=
  (onVerdictV1 (SessionV1.start m) v).m

def Handover.step (opts : SessionOpts) (h : Handover) : HandoverMove → Handover × List Effect
  | .turn env ev =>
      let r := SessionV2.step opts h.session (env, ev)
      ({ h with session := r.1, own := h.own + ownVerdicts opts h.session ev }, r.2)
  | .verdict v =>
      if h.inFlight = 0 then (h, [])
      else
        ({ h with
           inFlight := h.inFlight - 1
           session := { h.session with m := countVerdict h.session.m v }
           late := h.late + v.tally }, [])

def handover (opts : SessionOpts) : Machine Handover HandoverMove Effect where
  step := Handover.step opts

/-! ## Where the counts come from -/

/-- Every verdict counted since the snapshot is on a share of this session or
late. -/
structure Attributed (h : Handover) : Prop where
  accepted : h.session.m.sharesAccepted =
    h.session.startAccepted + h.own.accepted + h.late.accepted
  rejected : h.session.m.sharesRejected =
    h.session.startRejected + h.own.rejected + h.late.rejected

/-- What a turn may do to the counters and the snapshot. -/
structure Counts (s s' : SessionV2) (t : Tally) : Prop where
  accepted : s'.m.sharesAccepted = s.m.sharesAccepted + t.accepted
  rejected : s'.m.sharesRejected = s.m.sharesRejected + t.rejected
  startAccepted : s'.startAccepted = s.startAccepted
  startRejected : s'.startRejected = s.startRejected

theorem Counts.refl (s : SessionV2) : Counts s s 0 := ⟨rfl, rfl, rfl, rfl⟩

theorem countReject_tally (m : ShareMetrics) (transition : Bool) (category : RejectReason) :
    (m.countReject transition category).sharesAccepted =
        m.sharesAccepted + (rejectTally transition).accepted ∧
      (m.countReject transition category).sharesRejected =
        m.sharesRejected + (rejectTally transition).rejected := by
  cases transition with
  | false => exact ⟨rfl, rfl⟩
  | true => exact ⟨rfl, rfl⟩

theorem onSubmitSharesSuccess_counts (env : Env) {s : SessionV2} {r : SubmitSharesSuccess}
    (hseq : ¬ s.seqNum < r.lastSequenceNumber) : Counts s (onSubmitSharesSuccess env s r).1
      ⟨creditedSubmits r.newSubmitsAccepted
        (s.submitTimes.keys.filter (· ≤ r.lastSequenceNumber)).length, 0⟩ := by
  have hsettled : (settleUpTo r.lastSequenceNumber env.now s.submitTimes s.submitTargets).settled =
      (s.submitTimes.keys.filter (· ≤ r.lastSequenceNumber)).length := by
    obtain ⟨-, -, hcount, -, -⟩ := foldl_settleOne r.lastSequenceNumber env.now
      s.submitTimes.entries
      { times := s.submitTimes, targets := s.submitTargets, settled := 0, out := [] }
    rw [zero_add] at hcount
    exact hcount
  unfold onSubmitSharesSuccess
  rw [if_neg hseq, ← hsettled]
  exact ⟨rfl, rfl, rfl, rfl⟩

theorem onSubmitSharesError_counts (env : Env) {s : SessionV2} {e : SubmitSharesError}
    (hseq : ¬ s.seqNum < e.sequenceNumber) : Counts s (onSubmitSharesError env s e).1
      (if e.sequenceNumber ∈ s.submitTimes then
        rejectTally ((s.submitTargets.lookup e.sequenceNumber).any fun issued =>
          transitionReject (rejectClass (Poolproto.sanitizePoolText e.error)) issued s.shareTarget)
      else 0) := by
  unfold onSubmitSharesError
  rw [if_neg hseq]
  cases htimes : s.submitTimes.lookup e.sequenceNumber with
  | none =>
    rw [if_neg (AList.lookup_eq_none.mp htimes)]
    exact .refl s
  | some sent =>
    rw [if_pos (GoMap.mem_of_lookup htimes)]
    have hcounts : ∀ transition category, Counts s
        { s with
          submitTimes := s.submitTimes.erase e.sequenceNumber
          submitTargets := s.submitTargets.erase e.sequenceNumber
          m := s.m.countReject transition category } (rejectTally transition) := by
      intro transition category
      obtain ⟨haccepted, hrejected⟩ := countReject_tally s.m transition category
      exact ⟨haccepted, hrejected, rfl, rfl⟩
    cases s.submitTargets.lookup e.sequenceNumber with
    | none => exact hcounts false _
    | some issued => exact hcounts _ _

variable {opts : SessionOpts}

/-- What a message on our channel does to the counters. -/
theorem handleMsg_counts {s : SessionV2} (hlive : s.ended = none) (env : Env) {msg : Message}
    (hown : foreignFrame opts msg = false) :
    Counts s (handleMsg env s msg).1 (ownVerdicts opts s (.poolMsg msg)) := by
  cases msg with
  | submitSharesSuccess r =>
    show Counts s (onSubmitSharesSuccess env s r).1 _
    by_cases hseq : s.seqNum < r.lastSequenceNumber
    · have hnone : ownVerdicts opts s (.poolMsg (.submitSharesSuccess r)) = 0 := by
        simp [ownVerdicts, hseq]
      rw [hnone, onSubmitSharesSuccess, if_pos hseq]
      exact .refl s
    · have hcredit := onSubmitSharesSuccess_counts env hseq
      simpa [ownVerdicts, hlive, hown, hseq] using hcredit
  | submitSharesError e =>
    show Counts s (onSubmitSharesError env s e).1 _
    by_cases hseq : s.seqNum < e.sequenceNumber
    · have hnone : ownVerdicts opts s (.poolMsg (.submitSharesError e)) = 0 := by
        simp [ownVerdicts, hseq]
      rw [hnone, onSubmitSharesError, if_pos hseq]
      exact .refl s
    · have hreject := onSubmitSharesError_counts env hseq
      simpa [ownVerdicts, hlive, hown, hseq] using hreject
  | newMiningJob j =>
    simp only [handleMsg, onNewMiningJob]
    split <;> exact ⟨rfl, rfl, rfl, rfl⟩
  | setNewPrevHash p =>
    simp only [handleMsg, onSetNewPrevHash]
    split <;> exact ⟨rfl, rfl, rfl, rfl⟩
  | setTarget t =>
    simp only [handleMsg, onSetTarget]
    split
    · split <;> exact ⟨rfl, rfl, rfl, rfl⟩
    · exact ⟨rfl, rfl, rfl, rfl⟩
  | closeChannel cc => exact ⟨rfl, rfl, rfl, rfl⟩
  | _ =>
    simp only [handleMsg, misplacedMsgType]
    split <;> exact ⟨rfl, rfl, rfl, rfl⟩

theorem onStatsTick_counts (opts : SessionOpts) (s : SessionV2) :
    Counts s (onStatsTick opts s) 0 := by
  unfold onStatsTick
  split <;> exact ⟨rfl, rfl, rfl, rfl⟩

theorem onShare_counts (opts : SessionOpts) (env : Env) (s : SessionV2) (sh : Share) :
    Counts s (onShare opts env s sh).1 0 := by
  unfold onShare
  dsimp only
  split
  · exact ⟨rfl, rfl, rfl, rfl⟩
  · split <;> exact ⟨rfl, rfl, rfl, rfl⟩

theorem ownVerdicts_of_ended {s : SessionV2} (hended : s.ended.isSome = true) (ev : Event) :
    ownVerdicts opts s ev = 0 := by
  unfold ownVerdicts
  split <;> simp [hended]

theorem ownVerdicts_of_foreign {msg : Message} (hguard : foreignFrame opts msg = true)
    (s : SessionV2) : ownVerdicts opts s (.poolMsg msg) = 0 := by
  cases msg with
  | submitSharesSuccess r => simp [ownVerdicts, hguard]
  | submitSharesError e => simp [ownVerdicts, hguard]
  | _ => rfl

theorem step_counts (opts : SessionOpts) (s : SessionV2) (env : Env) (ev : Event) :
    Counts s (SessionV2.step opts s (env, ev)).1 (ownVerdicts opts s ev) := by
  by_cases hended : s.ended.isSome = true
  · rw [SessionV2.step, if_pos hended, ownVerdicts_of_ended hended]
    exact .refl s
  · have hlive : s.ended = none := by simpa using hended
    cases ev with
    | poolMsg msg =>
      by_cases hguard : foreignFrame opts msg = true
      · have hstep : (SessionV2.step opts s (env, .poolMsg msg)).1 = s := by
          simp [SessionV2.step, hlive, onPoolMsg, hguard]
        rw [hstep, ownVerdicts_of_foreign hguard]
        exact .refl s
      · have hown : foreignFrame opts msg = false := by simpa using hguard
        rw [SessionV2.step_poolMsg hlive env hown]
        exact handleMsg_counts hlive env hown
    | statsTick =>
      rw [SessionV2.step, if_neg hended]
      exact onStatsTick_counts opts s
    | share sh =>
      rw [SessionV2.step, if_neg hended]
      exact onShare_counts opts env s sh
    | _ =>
      rw [SessionV2.step, if_neg hended]
      exact ⟨rfl, rfl, rfl, rfl⟩

theorem countVerdict_tally (m : ShareMetrics) (v : Verdict) :
    (countVerdict m v).sharesAccepted = m.sharesAccepted + v.tally.accepted ∧
      (countVerdict m v).sharesRejected = m.sharesRejected + v.tally.rejected := by
  cases v with
  | failed => exact ⟨rfl, rfl⟩
  | accepted => exact ⟨rfl, rfl⟩
  | rejected reason target suggested =>
    exact countReject_tally m _ _

/-- Every step keeps the attribution. -/
theorem Attributed.step {h : Handover} (hatt : Attributed h) (mv : HandoverMove) :
    Attributed ((handover opts).step h mv).1 := by
  cases mv with
  | turn env ev =>
    have hcounts := step_counts opts h.session env ev
    constructor
    · show (SessionV2.step opts h.session (env, ev)).1.m.sharesAccepted =
        (SessionV2.step opts h.session (env, ev)).1.startAccepted +
          (h.own.accepted + (ownVerdicts opts h.session ev).accepted) + h.late.accepted
      rw [hcounts.accepted, hcounts.startAccepted, hatt.accepted]
      omega
    · show (SessionV2.step opts h.session (env, ev)).1.m.sharesRejected =
        (SessionV2.step opts h.session (env, ev)).1.startRejected +
          (h.own.rejected + (ownVerdicts opts h.session ev).rejected) + h.late.rejected
      rw [hcounts.rejected, hcounts.startRejected, hatt.rejected]
      omega
  | verdict v =>
    show Attributed (if h.inFlight = 0 then (h, []) else _).1
    by_cases hnone : h.inFlight = 0
    · rw [if_pos hnone]
      exact hatt
    · rw [if_neg hnone]
      obtain ⟨haccepted, hrejected⟩ := countVerdict_tally h.session.m v
      constructor
      · show (countVerdict h.session.m v).sharesAccepted =
          h.session.startAccepted + h.own.accepted + (h.late.accepted + v.tally.accepted)
        rw [haccepted, hatt.accepted]
        omega
      · show (countVerdict h.session.m v).sharesRejected =
          h.session.startRejected + h.own.rejected + (h.late.rejected + v.tally.rejected)
        rw [hrejected, hatt.rejected]
        omega

/-! ## What a tick decides -/

/-- The decision of a tick, in terms of where the counts come from. -/
theorem Attributed.tick {h : Handover} (hatt : Attributed h) (hlive : h.session.ended = none)
    (env : Env) :
    ((handover opts).step h (.turn env .statsTick)).1.session.ended = some .yieldDegraded ↔
      opts.yieldFailover = true ∧ (h.own + h.late).degraded = true := by
  have haccepted : h.session.m.sharesAccepted - h.session.startAccepted =
      (h.own + h.late).accepted := by
    rw [hatt.accepted, Tally.accepted_add]
    omega
  have hrejected : h.session.m.sharesRejected - h.session.startRejected =
      (h.own + h.late).rejected := by
    rw [hatt.rejected, Tally.rejected_add]
    omega
  have hstep : ((handover opts).step h (.turn env .statsTick)).1.session =
      onStatsTick opts h.session := by
    show (SessionV2.step opts h.session (env, .statsTick)).1 = _
    rw [SessionV2.step, hlive]
    rfl
  rw [hstep, onStatsTick, haccepted, hrejected]
  by_cases hdegraded : (opts.yieldFailover && yieldDegraded (h.own + h.late).accepted
      (h.own + h.late).rejected) = true
  · rw [if_pos hdegraded]
    exact iff_of_true rfl (by simpa [Tally.degraded] using hdegraded)
  · rw [if_neg hdegraded, hlive]
    exact iff_of_false (by simp) (by simpa [Tally.degraded] using hdegraded)

/-- A tick of a session that is still running ends it exactly if the verdicts
on its own shares say so. -/
def JudgesOwn (opts : SessionOpts) (h : Handover) (mv : HandoverMove) : Prop :=
  ∀ env, mv = .turn env .statsTick → h.session.ended = none →
    (((handover opts).step h mv).1.session.ended = some .yieldDegraded ↔
      opts.yieldFailover = true ∧ h.own.degraded = true)

/-- At a tick of a session that is still running, the late verdicts do not
tip the balance. -/
def Untipped (opts : SessionOpts) (h : Handover) (mv : HandoverMove) : Prop :=
  ∀ env, mv = .turn env .statsTick → h.session.ended = none → opts.yieldFailover = true →
    (h.own + h.late).degraded = h.own.degraded

theorem judgesOwn_iff {h : Handover} (hatt : Attributed h) (mv : HandoverMove) :
    JudgesOwn opts h mv ↔ Untipped opts h mv := by
  constructor
  · intro hjudges env htick hlive hfailover
    have htick' := hjudges env htick hlive
    subst htick
    rw [hatt.tick hlive env] at htick'
    simp only [hfailover, true_and] at htick'
    exact Bool.eq_iff_iff.mpr htick'
  · intro huntipped env htick hlive
    subst htick
    rw [hatt.tick hlive env]
    refine and_congr_right fun hfailover => ?_
    rw [huntipped env rfl hlive hfailover]

/-- The balance is not tipped if no left-over verdict is counted after the
snapshot. -/
theorem meets_untipped_of_uncounted (opts : SessionOpts) {moves : List HandoverMove}
    (hquiet : ∀ v, .verdict v ∈ moves → v.tally = 0) (h : Handover) (hlate : h.late = 0) :
    (handover opts).Meets (Untipped opts) h moves := by
  induction moves generalizing h with
  | nil => trivial
  | cons mv moves ih =>
    have hzero : ∀ t : Tally, t + 0 = t := fun t => rfl
    refine ⟨?_, ih (fun v hv => hquiet v (by simp [hv])) _ ?_⟩
    · intro env _ _ _
      rw [hlate, hzero]
    · cases mv with
      | turn env ev => exact hlate
      | verdict v =>
        show (if h.inFlight = 0 then (h, []) else _ : Handover × List Effect).1.late = 0
        split
        · exact hlate
        · show h.late + v.tally = 0
          rw [hlate, hquiet v (by simp), hzero]

/-- **Whose shares a session is judged by.**  Whatever the goroutines of an
earlier session do and when, every stats tick of the V2 session decides by
the verdicts on the session's own shares if and only if at no tick the
late verdicts tip the balance; none does if no late verdict is counted. -/
theorem yieldFailover_judges_own_iff (opts : SessionOpts) (inFlight : Nat) (shareTarget : Hash)
    (m : ShareMetrics) (moves : List HandoverMove) :
    ((∀ pre mv, pre ++ [mv] <+: moves →
      JudgesOwn opts ((handover opts).run (.start inFlight shareTarget m) pre) mv) ↔
    (handover opts).Meets (Untipped opts) (.start inFlight shareTarget m) moves) ∧
    ((∀ v, .verdict v ∈ moves → v.tally = 0) →
      (handover opts).Meets (Untipped opts) (.start inFlight shareTarget m) moves) := by
  refine ⟨?_, fun hquiet => meets_untipped_of_uncounted opts hquiet _ rfl⟩
  refine (handover opts).steps_exact (I := fun _ h => Attributed h)
    (G := fun _ h mv => JudgesOwn opts h mv) (Q := fun _ => True) ?_ ?_ ?_ moves (by simp)
  · exact ⟨rfl, rfl⟩
  · intro _ h mv _ hatt
    exact judgesOwn_iff hatt mv
  · intro _ h mv _ hatt _
    exact hatt.step mv

/-- A V1 session that submits 32 shares and loses its pool after the answers
have arrived and before one of them is counted. -/
def hurriedSession : List (Env × EventV1) :=
  (calmEnv, .job (sampleJobV1 [0x31] Bytes.zero32) 0) ::
    List.replicate 32 (calmEnv, .share sampleShare) ++ [(calmEnv, .jobsClosed)]

/-- The answers: all 32 shares are `stale`. -/
def staleAnswers : List HandoverMove :=
  List.replicate 32 (.verdict (.rejected [0x73, 0x74, 0x61, 0x6c, 0x65] Bytes.zero32 0))

/-- The V2 session that follows gives up a pool that has not judged a single
share of its own. -/
theorem staleAnswers_blame_next :
    let v1 := runSessionV1 true
    let left := (v1.outputs (SessionV1.start zeroMetrics) hurriedSession).countP fun
      | .submit _ => true
      | _ => false
    let m := (v1.run (SessionV1.start zeroMetrics) hurriedSession).m
    let opts := { sampleOpts with yieldFailover := true }
    let h := (handover opts).run (.start left Bytes.zero32 m) staleAnswers
    left = 32 ∧ h.session.ended = none ∧ h.own = 0 ∧ h.own.degraded = false ∧
      ((handover opts).step h (.turn calmEnv .statsTick)).1.session.ended =
        some .yieldDegraded := by
  decide +kernel

end Otedama.Engine
