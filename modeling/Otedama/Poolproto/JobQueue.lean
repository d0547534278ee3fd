import Otedama.Framework.GoChan
import Otedama.Poolproto.StratumV1

/-! # The queue of jobs, step by step

`sendJob` puts a job into a channel of capacity 8 and never blocks: a job
with `clean_jobs` purges the channel first, and when the channel is full
the oldest job gives way. It holds `sendMu` throughout, as does
`closeChannels`, but the engine receives without the lock, between any two
of its operations on the channel.

The model has one step for each such operation. Jobs carry their number
in the order of arrival, as two jobs may well be equal. -/

namespace Otedama.Poolproto

open GoChan List

/-! ## The source -/

/-- A job and its number. -/
abbrev NumberedJob := Job × Nat

/-- Where `sendJob` stands. -/
inductive SendPhase where
  /-- The loop that receives until the channel is empty. -/
  | purge
  /-- The first send. -/
  | send
  /-- The channel was full: receive one job. -/
  | dropOldest
  /-- The second send. -/
  | resend
  /-- The deferred unlock of `sendMu`. -/
  | unlock
  deriving DecidableEq, Repr

structure JobQueue where
  jobsCh : GoChan NumberedJob jobsChCap
  closed : Bool
  /-- How many jobs have arrived. -/
  arrived : Nat
  /-- The call that holds `sendMu`. -/
  sending : Option (NumberedJob × SendPhase)

def JobQueue.start : JobQueue where
  jobsCh := GoChan.empty
  closed := false
  arrived := 0
  sending := none

/-- Who moves. -/
inductive QueueMove where
  /-- `sendJob` is called and takes `sendMu`. -/
  | sendJob (job : Job)
  /-- The next operation of the call in progress. -/
  | proceed
  | closeChannels
  /-- The engine receives. -/
  | receive

/-- What is seen of the queue. -/
inductive QueueEvent where
  /-- A job arrives on an open session. -/
  | called (job : NumberedJob)
  /-- A job arrives on a closed session, and is dropped. -/
  | refused (job : NumberedJob)
  /-- A queued job is taken out by the call for another one. -/
  | discarded (old job : NumberedJob)
  | enqueued (job : NumberedJob)
  /-- The call for a job on an open session returns. -/
  | returned (job : NumberedJob)
  | received (job : NumberedJob)
  | sendOnClosed (job : NumberedJob)
  | closeOfClosed

/-- `sendJob`, up to its first operation on the channel. -/
def JobQueue.sendJob (q : JobQueue) (job : Job) : JobQueue × List QueueEvent :=
  if q.sending.isSome then (q, [])
  else if q.closed then ({ q with arrived := q.arrived + 1 }, [.refused (job, q.arrived)])
  else
    ({ q with
       arrived := q.arrived + 1
       sending := some ((job, q.arrived), if job.cleanJobs then .purge else .send) },
     [.called (job, q.arrived)])

/-- An operation of the call for `job` on the channel. -/
def JobQueue.proceed (q : JobQueue) (job : NumberedJob) :
    SendPhase → JobQueue × List QueueEvent
  | .purge =>
      match q.jobsCh.recv with
      | .got old c => ({ q with jobsCh := c }, [.discarded old job])
      | .empty => ({ q with sending := some (job, .send) }, [])
      -- A closed channel yields zero values for ever.
      | .closed => (q, [])
  | .send =>
      match q.jobsCh.send job with
      | .sent c => ({ q with jobsCh := c, sending := some (job, .unlock) }, [.enqueued job])
      | .full => ({ q with sending := some (job, .dropOldest) }, [])
      | .panic => ({ q with sending := none }, [.sendOnClosed job])
  | .dropOldest =>
      match q.jobsCh.recv with
      | .got old c =>
          ({ q with jobsCh := c, sending := some (job, .resend) }, [.discarded old job])
      | .empty => ({ q with sending := some (job, .resend) }, [])
      | .closed => ({ q with sending := some (job, .resend) }, [])
  | .resend =>
      match q.jobsCh.send job with
      | .sent c => ({ q with jobsCh := c, sending := some (job, .unlock) }, [.enqueued job])
      | .full => ({ q with sending := some (job, .unlock) }, [])
      | .panic => ({ q with sending := none }, [.sendOnClosed job])
  | .unlock => ({ q with sending := none }, [.returned job])

def JobQueue.closeChannels (q : JobQueue) : JobQueue × List QueueEvent :=
  if q.sending.isSome then (q, [])
  else
    match q.jobsCh.close with
    | some c => ({ q with jobsCh := c, closed := true }, [])
    | none => (q, [.closeOfClosed])

def JobQueue.receive (q : JobQueue) : JobQueue × List QueueEvent :=
  match q.jobsCh.recv with
  | .got job c => ({ q with jobsCh := c }, [.received job])
  | .empty => (q, [])
  | .closed => (q, [])

/-- The queue with everyone who uses it. A move that has to wait, for the
lock or for a job, does nothing. -/
def jobQueue : Machine JobQueue QueueMove QueueEvent where
  step q
    | .sendJob job => q.sendJob job
    | .proceed =>
        match q.sending with
        | none => (q, [])
        | some (job, phase) => q.proceed job phase
    | .closeChannels => q.closeChannels
    | .receive => q.receive

/-! ## What a move does -/

/-- What the call for `job` knows about the channel in each phase. -/
def PhaseOk (job : NumberedJob) (buf : List NumberedJob) : SendPhase → Prop
  | .purge => job.1.cleanJobs = true
  -- After the purge only the engine uses the channel, and it does not send.
  | .send => job.1.cleanJobs = true → buf = []
  | .dropOldest => job.1.cleanJobs = false
  -- There is room for the second send.
  | .resend => job.1.cleanJobs = false ∧ buf.length < jobsChCap
  | .unlock => True

/-- The session is open as long as a call is in progress. -/
structure QueueLocal (q : JobQueue) : Prop where
  closed : q.jobsCh.closed = q.closed
  busy : ∀ job phase, q.sending = some (job, phase) →
    q.closed = false ∧ PhaseOk job q.jobsCh.buf phase

/-- The effect of a move. -/
inductive QueueEffect (q q' : JobQueue) : List QueueEvent → Prop
  /-- Nothing is seen: somebody waits, the call in progress goes on without
      touching the channel, or the channel is closed. -/
  | quiet (hbuf : q'.jobsCh.buf = q.jobsCh.buf) (harrived : q'.arrived = q.arrived)
      (hsending : q'.sending.map Prod.fst = q.sending.map Prod.fst)
      (hunlock : ∀ job, q'.sending = some (job, .unlock) ↔ q.sending = some (job, .unlock)) :
      QueueEffect q q' []
  | refuse (job : Job) (hidle : q.sending = none) (hbuf : q'.jobsCh.buf = q.jobsCh.buf)
      (harrived : q'.arrived = q.arrived + 1) (hsending : q'.sending = none) :
      QueueEffect q q' [.refused (job, q.arrived)]
  | call (job : Job) (phase : SendPhase) (hidle : q.sending = none)
      (hbuf : q'.jobsCh.buf = q.jobsCh.buf) (harrived : q'.arrived = q.arrived + 1)
      (hsending : q'.sending = some ((job, q.arrived), phase)) (hphase : phase ≠ .unlock) :
      QueueEffect q q' [.called (job, q.arrived)]
  | discard (old job : NumberedJob) (phase phase' : SendPhase)
      (hbusy : q.sending = some (job, phase)) (hphase : phase ≠ .unlock)
      (hbuf : q.jobsCh.buf = old :: q'.jobsCh.buf) (harrived : q'.arrived = q.arrived)
      (hsending : q'.sending = some (job, phase')) (hphase' : phase' ≠ .unlock) :
      QueueEffect q q' [.discarded old job]
  | enqueue (job : NumberedJob) (phase : SendPhase) (hbusy : q.sending = some (job, phase))
      (hphase : phase ≠ .unlock) (hbuf : q'.jobsCh.buf = q.jobsCh.buf ++ [job])
      (hclean : job.1.cleanJobs = true → q.jobsCh.buf = []) (harrived : q'.arrived = q.arrived)
      (hsending : q'.sending = some (job, .unlock)) :
      QueueEffect q q' [.enqueued job]
  | unlock (job : NumberedJob) (hbusy : q.sending = some (job, .unlock))
      (hbuf : q'.jobsCh.buf = q.jobsCh.buf) (harrived : q'.arrived = q.arrived)
      (hsending : q'.sending = none) :
      QueueEffect q q' [.returned job]
  | receive (job : NumberedJob) (hbuf : q.jobsCh.buf = job :: q'.jobsCh.buf)
      (harrived : q'.arrived = q.arrived) (hsending : q'.sending = q.sending) :
      QueueEffect q q' [.received job]
  | closeOfClosed (hsame : q' = q) : QueueEffect q q' [.closeOfClosed]

theorem QueueLocal.idle {q : JobQueue} (hclosed : q.jobsCh.closed = q.closed)
    (hidle : q.sending = none) : QueueLocal q := by
  refine ⟨hclosed, ?_⟩
  intro job phase hbusy
  rw [hidle] at hbusy
  cases hbusy

theorem QueueLocal.calling {q : JobQueue} {job : NumberedJob} {phase : SendPhase}
    (hclosed : q.jobsCh.closed = q.closed) (hsending : q.sending = some (job, phase))
    (hopen : q.closed = false) (hok : PhaseOk job q.jobsCh.buf phase) : QueueLocal q := by
  refine ⟨hclosed, ?_⟩
  intro job' phase' hbusy
  rw [hsending] at hbusy
  cases hbusy
  exact ⟨hopen, hok⟩

section

variable {q : JobQueue}

theorem QueueEffect.same (q : JobQueue) : QueueEffect q q [] :=
  .quiet rfl rfl rfl fun _ => Iff.rfl

theorem sendJob_effect (h : QueueLocal q) (job : Job) :
    QueueLocal (q.sendJob job).1 ∧ QueueEffect q (q.sendJob job).1 (q.sendJob job).2 := by
  unfold JobQueue.sendJob
  by_cases hwait : q.sending.isSome = true
  · rw [if_pos hwait]
    exact ⟨h, .same q⟩
  · rw [if_neg hwait]
    have hidle : q.sending = none := by simpa using hwait
    by_cases hclosed : q.closed = true
    · rw [if_pos hclosed]
      exact ⟨.idle h.closed hidle, .refuse job hidle rfl rfl hidle⟩
    · rw [if_neg hclosed]
      have hopen : q.closed = false := by simpa using hclosed
      constructor
      · refine .calling h.closed rfl hopen ?_
        split
        · assumption
        · rename_i hdirty
          exact fun hclean => absurd hclean hdirty
      · refine .call job _ hidle rfl rfl rfl ?_
        split <;> decide

/-- The call in progress goes on without touching the channel. -/
theorem QueueEffect.goOn {job : NumberedJob} {phase phase' : SendPhase}
    (hbusy : q.sending = some (job, phase)) (hphase : phase ≠ .unlock) (hphase' : phase' ≠ .unlock) :
    QueueEffect q { q with sending := some (job, phase') } [] := by
  refine .quiet rfl rfl (by rw [hbusy]; rfl) ?_
  intro job'
  rw [hbusy]
  simp [hphase, hphase']

section

variable (h : QueueLocal q) {job : NumberedJob} {phase : SendPhase}
  (hbusy : q.sending = some (job, phase))

include h hbusy

/-- A call finds the channel open, so its receives do not meet the end. -/
theorem QueueLocal.recv_cases :
    (∃ old c, q.jobsCh.recv = .got old c ∧ q.jobsCh.buf = old :: c.buf ∧ c.closed = q.closed) ∨
      q.jobsCh.recv = .empty ∧ q.jobsCh.buf = [] := by
  cases hrecv : q.jobsCh.recv with
  | got old c =>
    obtain ⟨hbuf, hclosed⟩ := recv_eq_got.mp hrecv
    exact .inl ⟨old, c, rfl, hbuf, hclosed.trans h.closed⟩
  | empty => exact .inr ⟨rfl, (recv_eq_empty.mp hrecv).1⟩
  | closed =>
    obtain ⟨-, hclosed⟩ := recv_eq_closed.mp hrecv
    rw [h.closed, (h.busy job phase hbusy).1] at hclosed
    cases hclosed

/-- Nor do its sends panic. -/
theorem QueueLocal.send_cases :
    (∃ c, q.jobsCh.send job = .sent c ∧ c.buf = q.jobsCh.buf ++ [job] ∧ c.closed = q.closed) ∨
      q.jobsCh.send job = .full ∧ q.jobsCh.buf.length = jobsChCap := by
  obtain ⟨hopen, -⟩ := h.busy job phase hbusy
  cases hsend : q.jobsCh.send job with
  | sent c =>
    obtain ⟨-, -, hbuf, hclosed⟩ := send_eq_sent.mp hsend
    exact .inl ⟨c, rfl, hbuf, hclosed.trans hopen.symm⟩
  | full => exact .inr ⟨rfl, (send_eq_full.mp hsend).2⟩
  | panic =>
    have hclosed := send_eq_panic.mp hsend
    rw [h.closed, hopen] at hclosed
    cases hclosed

end

theorem proceed_effect (h : QueueLocal q) {job : NumberedJob} {phase : SendPhase}
    (hbusy : q.sending = some (job, phase)) : QueueLocal (q.proceed job phase).1 ∧
      QueueEffect q (q.proceed job phase).1 (q.proceed job phase).2 := by
  obtain ⟨hopen, hok⟩ := h.busy job phase hbusy
  unfold JobQueue.proceed
  cases phase with
  | purge =>
    obtain ⟨old, c, hrecv, hbuf, hclosed⟩ | ⟨hrecv, hbuf⟩ := h.recv_cases hbusy
    · simp only [hrecv]
      exact ⟨.calling hclosed hbusy hopen hok,
        .discard old job .purge .purge hbusy (by decide) hbuf rfl hbusy (by decide)⟩
    · simp only [hrecv]
      exact ⟨.calling h.closed rfl hopen fun _ => hbuf, .goOn hbusy (by decide) (by decide)⟩
  | send =>
    obtain ⟨c, hsend, hbuf, hclosed⟩ | ⟨hsend, hfull⟩ := h.send_cases hbusy
    · simp only [hsend]
      exact ⟨.calling hclosed rfl hopen trivial,
        .enqueue job .send hbusy (by decide) hbuf hok rfl rfl⟩
    · simp only [hsend]
      -- The channel is empty after a purge, so it is full only without one.
      have hdirty : job.1.cleanJobs = false := by
        by_contra hclean
        rw [hok (by simpa using hclean)] at hfull
        cases hfull
      exact ⟨.calling h.closed rfl hopen hdirty, .goOn hbusy (by decide) (by decide)⟩
  | dropOldest =>
    obtain ⟨old, c, hrecv, hbuf, hclosed⟩ | ⟨hrecv, hbuf⟩ := h.recv_cases hbusy
    · simp only [hrecv]
      -- Dropping the oldest job makes room.
      have hroom : c.buf.length < jobsChCap := by
        have hle := q.jobsCh.bounded
        rw [hbuf, length_cons] at hle
        omega
      exact ⟨.calling hclosed rfl hopen ⟨hok, hroom⟩,
        .discard old job .dropOldest .resend hbusy (by decide) hbuf rfl rfl (by decide)⟩
    · simp only [hrecv]
      have hroom : q.jobsCh.buf.length < jobsChCap := by
        rw [hbuf]
        decide
      exact ⟨.calling h.closed rfl hopen ⟨hok, hroom⟩, .goOn hbusy (by decide) (by decide)⟩
  | resend =>
    obtain ⟨hdirty, hroom⟩ := hok
    obtain ⟨c, hsend, hbuf, hclosed⟩ | ⟨-, hfull⟩ := h.send_cases hbusy
    · simp only [hsend]
      refine ⟨.calling hclosed rfl hopen trivial,
        .enqueue job .resend hbusy (by decide) hbuf ?_ rfl rfl⟩
      intro hclean
      rw [hdirty] at hclean
      cases hclean
    · -- The second send never fails.
      omega
  | unlock => exact ⟨.idle h.closed rfl, .unlock job hbusy rfl rfl rfl⟩

theorem closeChannels_effect (h : QueueLocal q) :
    QueueLocal q.closeChannels.1 ∧ QueueEffect q q.closeChannels.1 q.closeChannels.2 := by
  unfold JobQueue.closeChannels
  by_cases hwait : q.sending.isSome = true
  · rw [if_pos hwait]
    exact ⟨h, .same q⟩
  · rw [if_neg hwait]
    have hidle : q.sending = none := by simpa using hwait
    unfold close
    by_cases hclosed : q.jobsCh.closed = true
    · rw [if_pos hclosed]
      exact ⟨h, .closeOfClosed rfl⟩
    · rw [if_neg hclosed]
      exact ⟨.idle rfl hidle, .quiet rfl rfl rfl fun _ => Iff.rfl⟩

/-- The engine makes room, and a purged channel stays empty. -/
theorem receive_effect (h : QueueLocal q) :
    QueueLocal q.receive.1 ∧ QueueEffect q q.receive.1 q.receive.2 := by
  unfold JobQueue.receive
  cases hrecv : q.jobsCh.recv with
  | got job c =>
    obtain ⟨hbuf, hclosed⟩ := recv_eq_got.mp hrecv
    refine ⟨⟨hclosed.trans h.closed, ?_⟩, .receive job hbuf rfl rfl⟩
    intro job' phase hbusy
    obtain ⟨hopen, hok⟩ := h.busy job' phase hbusy
    refine ⟨hopen, ?_⟩
    cases phase with
    | purge => exact hok
    | send =>
      intro hclean
      rw [hok hclean] at hbuf
      cases hbuf
    | dropOldest => exact hok
    | resend =>
      refine ⟨hok.1, lt_of_le_of_lt ?_ hok.2⟩
      rw [hbuf]
      exact Nat.le_succ _
    | unlock => trivial
  | empty => exact ⟨h, .same q⟩
  | closed => exact ⟨h, .same q⟩

/-- What a move does, whoever makes it. -/
theorem jobQueue_effect (h : QueueLocal q) (move : QueueMove) :
    QueueLocal (jobQueue.step q move).1 ∧
      QueueEffect q (jobQueue.step q move).1 (jobQueue.step q move).2 := by
  cases move with
  | sendJob job => exact sendJob_effect h job
  | proceed =>
    unfold jobQueue
    dsimp only
    cases hsending : q.sending with
    | none => exact ⟨h, .same q⟩
    | some call => exact proceed_effect h hsending
  | closeChannels => exact closeChannels_effect h
  | receive => exact receive_effect h

end

/-! ## A call returns -/

def QueueMove.isProceed : QueueMove → Bool
  | .proceed => true
  | _ => false

/-- How many operations the call in progress has left, at most. -/
def JobQueue.work (q : JobQueue) : Nat :=
  match q.sending with
  | none => 0
  | some (_, .purge) => q.jobsCh.buf.length + 5
  | some (_, .send) => 4
  | some (_, .dropOldest) => 3
  | some (_, .resend) => 2
  | some (_, .unlock) => 1

theorem JobQueue.work_le (q : JobQueue) : q.work ≤ jobsChCap + 5 := by
  have hle := q.jobsCh.bounded
  unfold JobQueue.work
  split <;> omega

section

variable {q : JobQueue} {job : NumberedJob}

variable {phase : SendPhase}

theorem work_of_sending (h : q.sending = some (job, phase)) : 0 < q.work := by
  unfold JobQueue.work
  rw [h]
  cases phase <;> simp

/-- An operation of the call: it returns, or has less left to do. -/
theorem proceed_work (h : QueueLocal q) (hbusy : q.sending = some (job, phase)) :
    .returned job ∈ (q.proceed job phase).2 ∨
      (∃ phase', (q.proceed job phase).1.sending = some (job, phase')) ∧
        (q.proceed job phase).1.work < q.work := by
  obtain ⟨hopen, -⟩ := h.busy job phase hbusy
  have hclosed : q.jobsCh.closed = false := h.closed.trans hopen
  have hwork : q.work = JobQueue.work { q with sending := some (job, phase) } := by
    rw [← hbusy]
  rw [hwork]
  cases phase with
  | purge =>
    right
    unfold JobQueue.proceed
    dsimp only
    cases hrecv : q.jobsCh.recv with
    | got old c =>
      obtain ⟨hbuf, -⟩ := recv_eq_got.mp hrecv
      refine ⟨⟨.purge, hbusy⟩, ?_⟩
      unfold JobQueue.work
      simp only [hbusy, hbuf, length_cons]
      omega
    | empty =>
      refine ⟨⟨.send, rfl⟩, ?_⟩
      show 4 < q.jobsCh.buf.length + 5
      omega
    | closed =>
      rw [(recv_eq_closed.mp hrecv).2] at hclosed
      cases hclosed
  | send =>
    right
    unfold JobQueue.proceed
    dsimp only
    cases hsend : q.jobsCh.send job with
    | sent c => exact ⟨⟨.unlock, rfl⟩, show 1 < 4 by decide⟩
    | full => exact ⟨⟨.dropOldest, rfl⟩, show 3 < 4 by decide⟩
    | panic =>
      rw [send_eq_panic.mp hsend] at hclosed
      cases hclosed
  | dropOldest =>
    right
    unfold JobQueue.proceed
    dsimp only
    cases q.jobsCh.recv with
    | got old c | empty | closed => exact ⟨⟨.resend, rfl⟩, show 2 < 3 by decide⟩
  | resend =>
    right
    unfold JobQueue.proceed
    dsimp only
    cases hsend : q.jobsCh.send job with
    | sent c | full => exact ⟨⟨.unlock, rfl⟩, show 1 < 2 by decide⟩
    | panic =>
      rw [send_eq_panic.mp hsend] at hclosed
      cases hclosed
  | unlock => exact .inl (mem_singleton.mpr rfl)

/-- The engine does not hold a call up. -/
theorem receive_work (hbusy : q.sending = some (job, phase)) :
    q.receive.1.sending = some (job, phase) ∧ q.receive.1.work ≤ q.work := by
  unfold JobQueue.receive
  cases hrecv : q.jobsCh.recv with
  | got old c =>
    obtain ⟨hbuf, -⟩ := recv_eq_got.mp hrecv
    refine ⟨hbusy, ?_⟩
    unfold JobQueue.work
    dsimp only
    rw [hbusy, hbuf]
    cases phase <;> simp
  | empty => exact ⟨hbusy, le_rfl⟩
  | closed => exact ⟨hbusy, le_rfl⟩

/-- Any move: the call returns, or is in progress still and has no more left
to do, and less if the move was its own. -/
theorem step_work (h : QueueLocal q) (hbusy : q.sending = some (job, phase)) (move : QueueMove) :
    .returned job ∈ (jobQueue.step q move).2 ∨
      (∃ phase', (jobQueue.step q move).1.sending = some (job, phase')) ∧
        (jobQueue.step q move).1.work + (if move.isProceed then 1 else 0) ≤ q.work := by
  have hwait : q.sending.isSome = true := by
    rw [hbusy]
    rfl
  cases move with
  | sendJob job' =>
    have hstep : jobQueue.step q (.sendJob job') = (q, []) := if_pos hwait
    rw [hstep]
    exact .inr ⟨⟨phase, hbusy⟩, le_rfl⟩
  | proceed =>
    have hstep : jobQueue.step q .proceed = q.proceed job phase := by
      unfold jobQueue
      dsimp only
      rw [hbusy]
    rw [hstep]
    exact proceed_work h hbusy
  | closeChannels =>
    have hstep : jobQueue.step q .closeChannels = (q, []) := if_pos hwait
    rw [hstep]
    exact .inr ⟨⟨phase, hbusy⟩, le_rfl⟩
  | receive =>
    obtain ⟨hsending, hle⟩ := receive_work hbusy
    exact .inr ⟨⟨phase, hsending⟩, hle⟩

/-- A call returns after `work` operations of its own, whatever happens in
between. -/
theorem returns_of_work (moves : List QueueMove) (h : QueueLocal q)
    (hbusy : q.sending = some (job, phase)) (hcount : q.work ≤ moves.countP QueueMove.isProceed) :
    .returned job ∈ jobQueue.outputs q moves := by
  induction moves generalizing q phase with
  | nil =>
    have hpos := work_of_sending hbusy
    rw [countP_nil] at hcount
    omega
  | cons move moves ih =>
    rw [Machine.outputs_cons]
    obtain hreturned | ⟨⟨phase', hbusy'⟩, hwork⟩ := step_work h hbusy move
    · exact mem_append_left _ hreturned
    · apply mem_append_right
      apply ih (jobQueue_effect h move).1 hbusy'
      rw [countP_cons] at hcount
      split at hwork
      · rename_i hproceed
        rw [if_pos hproceed] at hcount
        omega
      · rename_i hother
        rw [if_neg hother] at hcount
        omega

end

end Otedama.Poolproto
