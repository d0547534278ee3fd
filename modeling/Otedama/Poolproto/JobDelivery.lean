import Otedama.Poolproto.JobQueue

/-! # What the engine receives

Whatever the interleaving, the engine receives jobs in the order of their
arrival, the newest job always gets into the queue, and a job with
`clean_jobs` is a barrier that no earlier job passes.

The invariant carries the events so far beside the state. Its heart is
that what was received, followed by what is queued, is a sublist of what
has arrived, and that the job of the call in progress comes behind it. -/

namespace Otedama.Poolproto

open List Prod

/-! ## What is seen -/

/-- The jobs in the order of arrival. -/
def arrivals (es : List QueueEvent) : List NumberedJob :=
  es.filterMap fun
    | .called job => some job
    | .refused job => some job
    | _ => none

/-- The jobs in the order in which the engine receives them. -/
def receptions (es : List QueueEvent) : List NumberedJob :=
  es.filterMap fun
    | .received job => some job
    | _ => none

/-- The call that an event belongs to, and how far the call is then. -/
def QueueEvent.stage : QueueEvent → Option (NumberedJob × Nat)
  | .called job => some (job, 0)
  | .discarded _ job => some (job, 1)
  | .enqueued job => some (job, 2)
  | .returned job => some (job, 3)
  | _ => none

/-- The events of one call come in the order of its stages. -/
def InOrder (a b : QueueEvent) : Prop :=
  ∀ job i k, a.stage = some (job, i) → b.stage = some (job, k) → i ≤ k

/-- After a job with `clean_jobs` is in the queue, no earlier one is received. -/
def Barrier (a b : QueueEvent) : Prop :=
  ∀ job job', a = .enqueued job → job.1.cleanJobs = true → b = .received job' → job.2 ≤ job'.2

/-- What the events so far say about the queue. -/
structure QueueInv (es : List QueueEvent) (q : JobQueue) : Prop where
  here : QueueLocal q
  numbered : (arrivals es).map Prod.snd = List.range q.arrived
  order : (receptions es ++ q.jobsCh.buf).Sublist (arrivals es)
  /-- The job of a call comes behind everything that is queued or received. -/
  pending : ∀ job phase, q.sending = some (job, phase) → phase ≠ .unlock →
    (∃ old, arrivals es = old ++ [job] ∧ (receptions es ++ q.jobsCh.buf).Sublist old) ∧
      ∀ e ∈ es, ∀ i, e.stage = some (job, i) → i ≤ 1
  sent : ∀ job, q.sending = some (job, .unlock) →
    .enqueued job ∈ es ∧ job ∈ receptions es ++ q.jobsCh.buf ∧
      ∀ e ∈ es, ∀ i, e.stage = some (job, i) → i ≤ 2
  staged : ∀ e ∈ es, ∀ job i, e.stage = some (job, i) → job ∈ arrivals es
  inOrder : es.Pairwise InOrder
  barrier : es.Pairwise Barrier
  /-- What is behind a barrier is still to be received. -/
  behind : ∀ job, .enqueued job ∈ es → job.1.cleanJobs = true →
    ∀ job' ∈ q.jobsCh.buf, job.2 ≤ job'.2
  discarded : ∀ old job, .discarded old job ∈ es → old.2 < job.2 ∧
    (.enqueued job ∈ es ∨ ∃ phase, phase ≠ .unlock ∧ q.sending = some (job, phase))
  returned : ∀ job, .returned job ∈ es → .enqueued job ∈ es
  newest : ∀ xs job, es = xs ++ [.returned job] → job ∈ receptions es ++ q.jobsCh.buf
  safe : ∀ job, .sendOnClosed job ∉ es

section

variable {es : List QueueEvent} {q q' : JobQueue}

theorem arrivals_append (es fs : List QueueEvent) :
    arrivals (es ++ fs) = arrivals es ++ arrivals fs := filterMap_append

theorem receptions_append (es fs : List QueueEvent) :
    receptions (es ++ fs) = receptions es ++ receptions fs := filterMap_append

variable {e : QueueEvent}

theorem pairwise_concat {R : QueueEvent → QueueEvent → Prop} (h : es.Pairwise R)
    (hlast : ∀ a ∈ es, R a e) : (es ++ [e]).Pairwise R := by
  rw [pairwise_append]
  refine ⟨h, pairwise_singleton _ _, ?_⟩
  intro a ha b hb
  rw [mem_singleton.mp hb]
  exact hlast a ha

/-- An event that is no reception passes every barrier. -/
theorem barrier_of_not_received {a b : QueueEvent} (h : ∀ job, b ≠ .received job) : Barrier a b := by
  intro job job' _ _ heq
  exact absurd heq (h job')

theorem QueueInv.number_lt (h : QueueInv es q) {job : NumberedJob} (hjob : job ∈ arrivals es) :
    job.2 < q.arrived := by
  have hmem : job.2 ∈ (arrivals es).map snd := mem_map_of_mem hjob
  rw [h.numbered] at hmem
  exact mem_range.mp hmem

/-- Numbers grow with the order of arrival. -/
theorem QueueInv.sorted (h : QueueInv es q) : (arrivals es).Pairwise fun a b => a.2 < b.2 := by
  have hrange : (range q.arrived).Pairwise (· < ·) := pairwise_lt_range
  rw [← h.numbered] at hrange
  exact pairwise_map.mp hrange

section

variable (h : QueueInv es q) {old : List NumberedJob} {job x : NumberedJob}
  (hold : arrivals es = old ++ [job])

include h hold

/-- What arrived before the last job has a smaller number. -/
theorem QueueInv.lt_of_mem_old (hx : x ∈ old) : x.2 < job.2 := by
  have hsorted := h.sorted
  rw [hold, pairwise_append] at hsorted
  exact hsorted.2.2 x hx job (mem_singleton.mpr rfl)

theorem QueueInv.le_of_last (hx : x ∈ arrivals es) : x.2 ≤ job.2 := by
  rw [hold] at hx
  obtain hx | hx := mem_append.mp hx
  · exact (h.lt_of_mem_old hold hx).le
  · rw [mem_singleton.mp hx]

end

theorem QueueInv.start : QueueInv [] JobQueue.start := by
  refine ⟨.idle rfl rfl, rfl, List.Sublist.refl _, ?_, ?_, ?_, .nil, .nil, ?_, ?_, ?_, ?_, ?_⟩ <;>
    simp [JobQueue.start]

/-- The call in progress, if there is one, is the same and is as far. -/
theorem call_of_same (hsending : q'.sending.map fst = q.sending.map fst)
    (hunlock : ∀ job, q'.sending = some (job, .unlock) ↔ q.sending = some (job, .unlock))
    {job : NumberedJob} {phase : SendPhase} (hbusy : q.sending = some (job, phase))
    (hphase : phase ≠ .unlock) : ∃ phase', phase' ≠ .unlock ∧ q'.sending = some (job, phase') := by
  rw [hbusy] at hsending
  cases hq : q'.sending with
  | none =>
    rw [hq] at hsending
    cases hsending
  | some call =>
    obtain ⟨job', phase'⟩ := call
    rw [hq] at hsending
    obtain rfl : job' = job := Option.some.inj hsending
    refine ⟨phase', ?_, rfl⟩
    rintro rfl
    have hback := (hunlock job').mp hq
    rw [hbusy] at hback
    cases hback
    exact hphase rfl

/-- Nothing is seen. -/
theorem QueueInv.quiet (h : QueueInv es q) (here : QueueLocal q')
    (hbuf : q'.jobsCh.buf = q.jobsCh.buf) (harrived : q'.arrived = q.arrived)
    (hsending : q'.sending.map fst = q.sending.map fst)
    (hunlock : ∀ job, q'.sending = some (job, .unlock) ↔ q.sending = some (job, .unlock)) :
    QueueInv es q' := by
  refine ⟨here, ?_, ?_, ?_, ?_, h.staged, h.inOrder, h.barrier, ?_, ?_, h.returned, ?_, h.safe⟩
  · rw [harrived]
    exact h.numbered
  · rw [hbuf]
    exact h.order
  · rw [hbuf]
    intro job phase hbusy hphase
    obtain ⟨phase', hphase', hbusy'⟩ :=
      call_of_same hsending.symm (fun job => (hunlock job).symm) hbusy hphase
    exact h.pending job phase' hbusy' hphase'
  · rw [hbuf]
    intro job hbusy
    exact h.sent job ((hunlock job).mp hbusy)
  · rw [hbuf]
    exact h.behind
  · intro old job hmem
    obtain ⟨hlt, henq | ⟨phase, hphase, hbusy⟩⟩ := h.discarded old job hmem
    · exact ⟨hlt, .inl henq⟩
    · exact ⟨hlt, .inr (call_of_same hsending hunlock hbusy hphase)⟩
  · rw [hbuf]
    exact h.newest

/-! ## One more event -/

/-- An event that is no arrival. -/
theorem arrivals_concat (h : arrivals [e] = []) : arrivals (es ++ [e]) = arrivals es := by
  rw [arrivals_append, h, append_nil]

/-- An event that is no reception. -/
theorem receptions_concat (h : receptions [e] = []) : receptions (es ++ [e]) = receptions es := by
  rw [receptions_append, h, append_nil]

theorem numbered_concat {n : Nat} {jobs : List NumberedJob} (h : jobs.map snd = range n)
    (job : Job) : (jobs ++ [(job, n)]).map snd = range (n + 1) := by
  rw [map_append, h, range_succ]
  rfl

/-- One more event. What it has to do with the calls is asked once: its job
has arrived, and no event of the same call is at a later stage. -/
theorem QueueInv.append (h : QueueInv es q) (here : QueueLocal q')
    (hnumbered : (arrivals (es ++ [e])).map snd = range q'.arrived)
    (horder : (receptions (es ++ [e]) ++ q'.jobsCh.buf).Sublist (arrivals (es ++ [e])))
    (hpending : ∀ job phase, q'.sending = some (job, phase) → phase ≠ .unlock →
      (∃ old, arrivals (es ++ [e]) = old ++ [job] ∧
        (receptions (es ++ [e]) ++ q'.jobsCh.buf).Sublist old) ∧
      ∀ a ∈ es ++ [e], ∀ i, a.stage = some (job, i) → i ≤ 1)
    (hsent : ∀ job, q'.sending = some (job, .unlock) →
      .enqueued job ∈ es ++ [e] ∧ job ∈ receptions (es ++ [e]) ++ q'.jobsCh.buf ∧
        ∀ a ∈ es ++ [e], ∀ i, a.stage = some (job, i) → i ≤ 2)
    (hstage : ∀ job i, e.stage = some (job, i) →
      job ∈ arrivals (es ++ [e]) ∧ ∀ a ∈ es, ∀ k, a.stage = some (job, k) → k ≤ i)
    (hbarrier : ∀ a ∈ es, Barrier a e)
    (hbehind : ∀ job, .enqueued job ∈ es ++ [e] → job.1.cleanJobs = true →
      ∀ job' ∈ q'.jobsCh.buf, job.2 ≤ job'.2)
    (hdiscarded : ∀ old job, .discarded old job ∈ es ++ [e] → old.2 < job.2 ∧
      (.enqueued job ∈ es ++ [e] ∨ ∃ phase, phase ≠ .unlock ∧ q'.sending = some (job, phase)))
    (hreturned : ∀ job, e = .returned job →
      .enqueued job ∈ es ∧ job ∈ receptions (es ++ [e]) ++ q'.jobsCh.buf)
    (hsafe : ∀ job, e ≠ .sendOnClosed job) : QueueInv (es ++ [e]) q' := by
  refine ⟨here, hnumbered, horder, hpending, hsent, ?_, ?_, ?_, hbehind, hdiscarded, ?_, ?_, ?_⟩
  · intro a ha job i hjob
    obtain ha | ha := mem_append.mp ha
    · rw [arrivals_append]
      exact mem_append_left _ (h.staged a ha job i hjob)
    · rw [mem_singleton.mp ha] at hjob
      exact (hstage job i hjob).1
  · apply pairwise_concat h.inOrder
    intro a ha job i k hold hnew
    exact (hstage job k hnew).2 a ha i hold
  · exact pairwise_concat h.barrier hbarrier
  · intro job hmem
    obtain hmem | hmem := mem_append.mp hmem
    · exact mem_append_left _ (h.returned job hmem)
    · exact mem_append_left _ (hreturned job (mem_singleton.mp hmem).symm).1
  · intro xs job heq
    exact (hreturned job (append_singleton_inj.mp heq).2).2
  · intro job hmem
    obtain hmem | hmem := mem_append.mp hmem
    · exact h.safe job hmem
    · exact hsafe job (mem_singleton.mp hmem).symm

/-- The stages of a call, with one more event. -/
theorem stage_le_concat {job : NumberedJob} {n : Nat}
    (h : ∀ a ∈ es, ∀ i, a.stage = some (job, i) → i ≤ n)
    (hlast : ∀ i, e.stage = some (job, i) → i ≤ n) :
    ∀ a ∈ es ++ [e], ∀ i, a.stage = some (job, i) → i ≤ n := by
  intro a ha
  obtain ha | ha := mem_append.mp ha
  · exact h a ha
  · rw [mem_singleton.mp ha]
    exact hlast

section

variable (h : QueueInv es q)

include h

/-- While no call is in progress, every discarding call has enqueued its job. -/
theorem QueueInv.enqueued_of_idle (hidle : q.sending = none) {old job : NumberedJob}
    (hmem : .discarded old job ∈ es) : old.2 < job.2 ∧ .enqueued job ∈ es := by
  obtain ⟨hlt, henq | ⟨phase, -, hbusy⟩⟩ := h.discarded old job hmem
  · exact ⟨hlt, henq⟩
  · rw [hidle] at hbusy
    cases hbusy

/-- The number of a new job is new. -/
theorem QueueInv.fresh (he : e ∈ es) (job : Job) (i : Nat) :
    e.stage ≠ some ((job, q.arrived), i) := by
  intro hstage
  exact lt_irrefl _ (h.number_lt (h.staged e he _ i hstage))

section

variable (here : QueueLocal q')

include here

theorem QueueInv.refuse (job : Job) (hidle : q.sending = none) (hbuf : q'.jobsCh.buf = q.jobsCh.buf)
    (harrived : q'.arrived = q.arrived + 1) (hsending : q'.sending = none) :
    QueueInv (es ++ [.refused (job, q.arrived)]) q' := by
  have harr : arrivals (es ++ [.refused (job, q.arrived)]) = arrivals es ++ [(job, q.arrived)] :=
    arrivals_append _ _
  apply h.append here
  · rw [harr, harrived]
    exact numbered_concat h.numbered job
  · rw [receptions_concat rfl, harr, hbuf]
    exact h.order.trans (sublist_append_left _ _)
  · simp [hsending]
  · simp [hsending]
  · simp [QueueEvent.stage]
  · intro a _
    exact barrier_of_not_received (by simp)
  · rw [hbuf]
    intro job' hmem
    exact h.behind job' (by simpa using hmem)
  · intro old job' hmem
    obtain ⟨hlt, henq⟩ := h.enqueued_of_idle hidle (by simpa using hmem)
    exact ⟨hlt, .inl (mem_append_left _ henq)⟩
  · simp
  · simp

theorem QueueInv.call (job : Job) {phase : SendPhase} (hidle : q.sending = none)
    (hbuf : q'.jobsCh.buf = q.jobsCh.buf) (harrived : q'.arrived = q.arrived + 1)
    (hsending : q'.sending = some ((job, q.arrived), phase)) (hphase : phase ≠ .unlock) :
    QueueInv (es ++ [.called (job, q.arrived)]) q' := by
  have harr : arrivals (es ++ [.called (job, q.arrived)]) = arrivals es ++ [(job, q.arrived)] :=
    arrivals_append _ _
  apply h.append here
  · rw [harr, harrived]
    exact numbered_concat h.numbered job
  · rw [receptions_concat rfl, harr, hbuf]
    exact h.order.trans (sublist_append_left _ _)
  · intro job' phase' hbusy _
    rw [hsending] at hbusy
    cases hbusy
    rw [harr, receptions_concat rfl, hbuf]
    refine ⟨⟨arrivals es, rfl, h.order⟩, stage_le_concat ?_ ?_⟩
    · intro a ha i hstage
      exact absurd hstage (h.fresh ha job i)
    · intro i hstage
      cases hstage
      exact Nat.zero_le 1
  · intro job' hbusy
    rw [hsending] at hbusy
    cases hbusy
    exact absurd rfl hphase
  · intro job' i hstage
    cases hstage
    rw [harr]
    refine ⟨mem_append_right _ (mem_singleton.mpr rfl), ?_⟩
    intro a ha k hold
    exact absurd hold (h.fresh ha job k)
  · intro a _
    exact barrier_of_not_received (by simp)
  · rw [hbuf]
    intro job' hmem
    exact h.behind job' (by simpa using hmem)
  · intro old job' hmem
    obtain ⟨hlt, henq⟩ := h.enqueued_of_idle hidle (by simpa using hmem)
    exact ⟨hlt, .inl (mem_append_left _ henq)⟩
  · simp
  · simp

theorem QueueInv.discard {old job : NumberedJob} {phase phase' : SendPhase}
    (hbusy : q.sending = some (job, phase)) (hphase : phase ≠ .unlock)
    (hbuf : q.jobsCh.buf = old :: q'.jobsCh.buf) (harrived : q'.arrived = q.arrived)
    (hsending : q'.sending = some (job, phase')) (hphase' : phase' ≠ .unlock) :
    QueueInv (es ++ [.discarded old job]) q' := by
  have harr : arrivals (es ++ [.discarded old job]) = arrivals es := arrivals_concat rfl
  have hrec : receptions (es ++ [.discarded old job]) = receptions es := receptions_concat rfl
  have hsub : (receptions es ++ q'.jobsCh.buf).Sublist (receptions es ++ q.jobsCh.buf) := by
    rw [hbuf]
    exact (sublist_cons_self _ _).append_left _
  obtain ⟨⟨before, hbefore, hsublist⟩, hstages⟩ := h.pending job phase hbusy hphase
  have hlt : old.2 < job.2 := by
    apply h.lt_of_mem_old hbefore
    apply hsublist.subset
    rw [hbuf]
    exact mem_append_right _ mem_cons_self
  apply h.append here
  · rw [harr, harrived]
    exact h.numbered
  · rw [hrec, harr]
    exact hsub.trans h.order
  · intro job' phase'' hbusy' _
    rw [hsending] at hbusy'
    cases hbusy'
    rw [harr, hrec]
    refine ⟨⟨before, hbefore, hsub.trans hsublist⟩, stage_le_concat hstages ?_⟩
    intro i hstage
    cases hstage
    exact le_rfl
  · intro job' hbusy'
    rw [hsending] at hbusy'
    cases hbusy'
    exact absurd rfl hphase'
  · intro job' i hstage
    cases hstage
    rw [harr, hbefore]
    exact ⟨mem_append_right _ (mem_singleton.mpr rfl), hstages⟩
  · intro a _
    exact barrier_of_not_received (by simp)
  · intro job' henq hclean x hx
    refine h.behind job' (by simpa using henq) hclean x ?_
    rw [hbuf]
    exact mem_cons_of_mem _ hx
  · intro old' job' hdisc
    obtain hdisc | hdisc := mem_append.mp hdisc
    · obtain ⟨hlt', henq | ⟨phase'', -, hbusy'⟩⟩ := h.discarded old' job' hdisc
      · exact ⟨hlt', .inl (mem_append_left _ henq)⟩
      · rw [hbusy] at hbusy'
        cases hbusy'
        exact ⟨hlt', .inr ⟨phase', hphase', hsending⟩⟩
    · cases mem_singleton.mp hdisc
      exact ⟨hlt, .inr ⟨phase', hphase', hsending⟩⟩
  · simp
  · simp

theorem QueueInv.enqueue {job : NumberedJob} {phase : SendPhase}
    (hbusy : q.sending = some (job, phase)) (hphase : phase ≠ .unlock)
    (hbuf : q'.jobsCh.buf = q.jobsCh.buf ++ [job])
    (hclean : job.1.cleanJobs = true → q.jobsCh.buf = []) (harrived : q'.arrived = q.arrived)
    (hsending : q'.sending = some (job, .unlock)) : QueueInv (es ++ [.enqueued job]) q' := by
  have harr : arrivals (es ++ [.enqueued job]) = arrivals es := arrivals_concat rfl
  have hrec : receptions (es ++ [.enqueued job]) = receptions es := receptions_concat rfl
  obtain ⟨⟨before, hbefore, hsublist⟩, hstages⟩ := h.pending job phase hbusy hphase
  have hstages' : ∀ a ∈ es, ∀ i, a.stage = some (job, i) → i ≤ 2 :=
    fun a ha i hstage => (hstages a ha i hstage).trans (by decide)
  apply h.append here
  · rw [harr, harrived]
    exact h.numbered
  · rw [hrec, harr, hbuf, hbefore, ← append_assoc]
    exact hsublist.append_right [job]
  · intro job' phase' hbusy' hphase'
    rw [hsending] at hbusy'
    cases hbusy'
    exact absurd rfl hphase'
  · intro job' hbusy'
    rw [hsending] at hbusy'
    cases hbusy'
    refine ⟨mem_append_right _ (mem_singleton.mpr rfl), ?_, stage_le_concat hstages' ?_⟩
    · rw [hbuf]
      simp
    · intro i hstage
      cases hstage
      exact le_rfl
  · intro job' i hstage
    cases hstage
    rw [harr, hbefore]
    exact ⟨mem_append_right _ (mem_singleton.mpr rfl), hstages'⟩
  · intro a _
    exact barrier_of_not_received (by simp)
  · intro job' henq hclean' x hx
    rw [hbuf] at hx
    obtain henq | henq := mem_append.mp henq
    · -- An earlier barrier: the new job is behind it, as all queued ones are.
      obtain hx | hx := mem_append.mp hx
      · exact h.behind job' henq hclean' x hx
      · rw [mem_singleton.mp hx]
        exact h.le_of_last hbefore (h.staged _ henq job' 2 rfl)
    · -- A new barrier: the queue was purged for it.
      cases mem_singleton.mp henq
      rw [hclean hclean', nil_append] at hx
      rw [mem_singleton.mp hx]
  · intro old job' hdisc
    obtain ⟨hlt, henq | ⟨phase', -, hbusy'⟩⟩ := h.discarded old job' (by simpa using hdisc)
    · exact ⟨hlt, .inl (mem_append_left _ henq)⟩
    · rw [hbusy] at hbusy'
      cases hbusy'
      exact ⟨hlt, .inl (mem_append_right _ (mem_singleton.mpr rfl))⟩
  · simp
  · simp

theorem QueueInv.unlock {job : NumberedJob} (hbusy : q.sending = some (job, .unlock))
    (hbuf : q'.jobsCh.buf = q.jobsCh.buf) (harrived : q'.arrived = q.arrived)
    (hsending : q'.sending = none) : QueueInv (es ++ [.returned job]) q' := by
  have harr : arrivals (es ++ [.returned job]) = arrivals es := arrivals_concat rfl
  have hrec : receptions (es ++ [.returned job]) = receptions es := receptions_concat rfl
  obtain ⟨henqueued, hhere, hstages⟩ := h.sent job hbusy
  apply h.append here
  · rw [harr, harrived]
    exact h.numbered
  · rw [hrec, harr, hbuf]
    exact h.order
  · simp [hsending]
  · simp [hsending]
  · intro job' i hstage
    cases hstage
    rw [harr]
    refine ⟨h.order.subset hhere, ?_⟩
    intro a ha k hold
    exact (hstages a ha k hold).trans (by decide)
  · intro a _
    exact barrier_of_not_received (by simp)
  · rw [hbuf]
    intro job' hmem
    exact h.behind job' (by simpa using hmem)
  · intro old job' hdisc
    obtain ⟨hlt, henq | ⟨phase, hphase, hbusy'⟩⟩ := h.discarded old job' (by simpa using hdisc)
    · exact ⟨hlt, .inl (mem_append_left _ henq)⟩
    · rw [hbusy] at hbusy'
      cases hbusy'
      exact absurd rfl hphase
  · intro job' heq
    cases heq
    rw [hrec, hbuf]
    exact ⟨henqueued, hhere⟩
  · simp

theorem QueueInv.receive {job : NumberedJob} (hbuf : q.jobsCh.buf = job :: q'.jobsCh.buf)
    (harrived : q'.arrived = q.arrived) (hsending : q'.sending = q.sending) :
    QueueInv (es ++ [.received job]) q' := by
  have harr : arrivals (es ++ [.received job]) = arrivals es := arrivals_concat rfl
  -- What was queued or received is so still.
  have hsame : receptions (es ++ [.received job]) ++ q'.jobsCh.buf =
      receptions es ++ q.jobsCh.buf := by
    have hrec : receptions (es ++ [.received job]) = receptions es ++ [job] := receptions_append _ _
    rw [hrec, hbuf, append_assoc]
    rfl
  apply h.append here
  · rw [harr, harrived]
    exact h.numbered
  · rw [hsame, harr]
    exact h.order
  · intro job' phase hbusy hphase
    rw [hsending] at hbusy
    rw [harr, hsame]
    obtain ⟨hbefore, hstages⟩ := h.pending job' phase hbusy hphase
    exact ⟨hbefore, stage_le_concat hstages (by simp [QueueEvent.stage])⟩
  · intro job' hbusy
    rw [hsending] at hbusy
    rw [hsame]
    obtain ⟨henq, hhere, hstages⟩ := h.sent job' hbusy
    exact ⟨mem_append_left _ henq, hhere, stage_le_concat hstages (by simp [QueueEvent.stage])⟩
  · simp [QueueEvent.stage]
  · intro a ha job' job'' henq hclean hnew
    subst henq
    cases hnew
    apply h.behind job' ha hclean
    rw [hbuf]
    exact mem_cons_self
  · intro job' henq hclean x hx
    refine h.behind job' (by simpa using henq) hclean x ?_
    rw [hbuf]
    exact mem_cons_of_mem _ hx
  · intro old job' hdisc
    rw [hsending]
    obtain ⟨hlt, henq | hbusy⟩ := h.discarded old job' (by simpa using hdisc)
    · exact ⟨hlt, .inl (mem_append_left _ henq)⟩
    · exact ⟨hlt, .inr hbusy⟩
  · simp
  · simp

end

theorem QueueInv.closeOfClosed : QueueInv (es ++ [.closeOfClosed]) q := by
  have harr : arrivals (es ++ [.closeOfClosed]) = arrivals es := arrivals_concat rfl
  have hrec : receptions (es ++ [.closeOfClosed]) = receptions es := receptions_concat rfl
  apply h.append h.here
  · rw [harr]
    exact h.numbered
  · rw [hrec, harr]
    exact h.order
  · intro job phase hbusy hphase
    rw [harr, hrec]
    obtain ⟨hbefore, hstages⟩ := h.pending job phase hbusy hphase
    exact ⟨hbefore, stage_le_concat hstages (by simp [QueueEvent.stage])⟩
  · intro job hbusy
    rw [hrec]
    obtain ⟨henq, hhere, hstages⟩ := h.sent job hbusy
    exact ⟨mem_append_left _ henq, hhere, stage_le_concat hstages (by simp [QueueEvent.stage])⟩
  · simp [QueueEvent.stage]
  · intro a _
    exact barrier_of_not_received (by simp)
  · intro job henq
    exact h.behind job (by simpa using henq)
  · intro old job hdisc
    obtain ⟨hlt, henq | hbusy⟩ := h.discarded old job (by simpa using hdisc)
    · exact ⟨hlt, .inl (mem_append_left _ henq)⟩
    · exact ⟨hlt, .inr hbusy⟩
  · simp
  · simp

/-- A move keeps the invariant. -/
theorem QueueInv.step (move : QueueMove) :
    QueueInv (es ++ (jobQueue.step q move).2) (jobQueue.step q move).1 := by
  obtain ⟨here, heffect⟩ := jobQueue_effect h.here move
  generalize (jobQueue.step q move).1 = q' at here heffect ⊢
  generalize (jobQueue.step q move).2 = new at heffect ⊢
  cases heffect with
  | quiet hbuf harrived hsending hunlock =>
    rw [append_nil]
    exact h.quiet here hbuf harrived hsending hunlock
  | refuse job hidle hbuf harrived hsending =>
    exact h.refuse here job hidle hbuf harrived hsending
  | call job phase hidle hbuf harrived hsending hphase =>
    exact h.call here job hidle hbuf harrived hsending hphase
  | discard old job phase phase' hbusy hphase hbuf harrived hsending hphase' =>
    exact h.discard here hbusy hphase hbuf harrived hsending hphase'
  | enqueue job phase hbusy hphase hbuf hclean harrived hsending =>
    exact h.enqueue here hbusy hphase hbuf hclean harrived hsending
  | unlock job hbusy hbuf harrived hsending =>
    exact h.unlock here hbusy hbuf harrived hsending
  | receive job hbuf harrived hsending => exact h.receive here hbuf harrived hsending
  | closeOfClosed hsame =>
    subst hsame
    exact h.closeOfClosed

end

end

theorem queueInv_run (moves : List QueueMove) :
    QueueInv (jobQueue.outputs JobQueue.start moves) (jobQueue.run JobQueue.start moves) :=
  jobQueue.run_history (P := fun _ es q => QueueInv es q) (Q := fun _ => True) QueueInv.start
    (fun _ _ _ move _ h => h.step move) moves fun _ _ => trivial

/-! ## The queue delivers -/

/-- What those do that do not have to wait: a job is accepted while the session
is open, the session can be closed, and the engine gets the oldest job. -/
structure Accepts (q : JobQueue) : Prop where
  sendJob : ∀ job, q.sending = none → q.closed = false →
    (jobQueue.step q (.sendJob job)).2 = [.called (job, q.arrived)] ∧
      ∃ phase, (jobQueue.step q (.sendJob job)).1.sending = some ((job, q.arrived), phase)
  closeChannels : q.sending = none → q.closed = false →
    (jobQueue.step q .closeChannels).1.closed = true
  receive : ∀ job rest, q.jobsCh.buf = job :: rest →
    (jobQueue.step q .receive).1.jobsCh.buf = rest ∧ (jobQueue.step q .receive).2 = [.received job]

theorem JobQueue.sendJob_of_open {q : JobQueue} (hidle : q.sending = none) (hopen : q.closed = false)
    (job : Job) : q.sendJob job = ({ q with
      arrived := q.arrived + 1
      sending := some ((job, q.arrived), if job.cleanJobs then .purge else .send) },
      [.called (job, q.arrived)]) := by
  unfold JobQueue.sendJob
  rw [if_neg (by simp [hidle]), if_neg (by simp [hopen])]

theorem QueueLocal.accepts {q : JobQueue} (h : QueueLocal q) : Accepts q where
  sendJob job hidle hopen := by
    show (q.sendJob job).2 = _ ∧ ∃ phase, (q.sendJob job).1.sending = _
    rw [q.sendJob_of_open hidle hopen]
    exact ⟨rfl, _, rfl⟩
  closeChannels hidle hopen := by
    have hclose : q.jobsCh.close = some ⟨q.jobsCh.buf, true, q.jobsCh.bounded⟩ :=
      GoChan.close_eq_some.mpr ⟨h.closed.trans hopen, rfl, rfl⟩
    show q.closeChannels.1.closed = true
    unfold JobQueue.closeChannels
    rw [if_neg (by simp [hidle]), hclose]
  receive job rest hbuf := by
    have hle := q.jobsCh.bounded
    rw [hbuf] at hle
    have hrecv : q.jobsCh.recv = .got job ⟨rest, q.jobsCh.closed, Nat.le_of_succ_le hle⟩ :=
      GoChan.recv_eq_got.mpr ⟨hbuf, rfl⟩
    show q.receive.1.jobsCh.buf = rest ∧ q.receive.2 = _
    unfold JobQueue.receive
    rw [hrecv]
    exact ⟨rfl, rfl⟩

/-- **The queue of jobs.**  In every run of the queue: the engine receives a
sublist of the jobs in the order of arrival; when a call on an open session
returns, its job is queued or has been received; no job passes a barrier;
a job is discarded only by the call for a newer one, which then enqueues
its own; a job that arrives on an open session is accepted; a call in
progress returns, and has enqueued its job by then; and nothing is sent on
the closed channel. -/
theorem jobQueue_delivers (moves : List QueueMove) :
    (receptions (jobQueue.outputs JobQueue.start moves)).Sublist
        (arrivals (jobQueue.outputs JobQueue.start moves)) ∧
    (arrivals (jobQueue.outputs JobQueue.start moves)).map Prod.snd =
      List.range (jobQueue.run JobQueue.start moves).arrived ∧
    (∀ xs job, jobQueue.outputs JobQueue.start moves = xs ++ [.returned job] →
      job ∈ (jobQueue.run JobQueue.start moves).jobsCh.buf ∨
        job ∈ receptions (jobQueue.outputs JobQueue.start moves)) ∧
    (jobQueue.outputs JobQueue.start moves).Pairwise Barrier ∧
    (jobQueue.outputs JobQueue.start moves).Pairwise InOrder ∧
    (∀ old job, .discarded old job ∈ jobQueue.outputs JobQueue.start moves → old.2 < job.2 ∧
      (.enqueued job ∈ jobQueue.outputs JobQueue.start moves ∨
        ∃ phase, (jobQueue.run JobQueue.start moves).sending = some (job, phase))) ∧
    (∀ job phase, (jobQueue.run JobQueue.start moves).sending = some (job, phase) →
      ∀ more, jobsChCap + 5 ≤ more.countP QueueMove.isProceed →
        .returned job ∈ jobQueue.outputs JobQueue.start (moves ++ more) ∧
          .enqueued job ∈ jobQueue.outputs JobQueue.start (moves ++ more)) ∧
    (∀ job, .sendOnClosed job ∉ jobQueue.outputs JobQueue.start moves) ∧
    Accepts (jobQueue.run JobQueue.start moves) := by
  have h := queueInv_run moves
  refine ⟨?_, h.numbered, ?_, h.barrier, h.inOrder, ?_, ?_, h.safe, h.here.accepts⟩
  · exact (List.sublist_append_left _ _).trans h.order
  · intro xs job heq
    exact (List.mem_append.mp (h.newest xs job heq)).symm
  · intro old job hmem
    obtain ⟨hlt, henq | ⟨phase, -, hbusy⟩⟩ := h.discarded old job hmem
    · exact ⟨hlt, .inl henq⟩
    · exact ⟨hlt, .inr ⟨phase, hbusy⟩⟩
  · intro job phase hbusy more hmore
    have hreturned : .returned job ∈ jobQueue.outputs JobQueue.start (moves ++ more) := by
      rw [Machine.outputs_append]
      apply List.mem_append_right
      exact returns_of_work more h.here hbusy (le_trans (JobQueue.work_le _) hmore)
    exact ⟨hreturned, (queueInv_run (moves ++ more)).returned job hreturned⟩

/-! ## Without interference -/

/-- The call in progress goes on alone. -/
def Proceeds (q q' : JobQueue) : Prop :=
  ∃ k, jobQueue.run q (List.replicate k .proceed) = q'

section

variable {q q' q'' : JobQueue} {job : NumberedJob}

theorem Proceeds.trans (h : Proceeds q q') (h' : Proceeds q' q'') : Proceeds q q'' := by
  obtain ⟨k, rfl⟩ := h
  obtain ⟨l, rfl⟩ := h'
  refine ⟨k + l, ?_⟩
  rw [replicate_add, Machine.run_append]

theorem Proceeds.single {phase : SendPhase} (hbusy : q.sending = some (job, phase)) :
    Proceeds q (q.proceed job phase).1 := by
  refine ⟨1, ?_⟩
  show (jobQueue.step q .proceed).1 = _
  unfold jobQueue
  dsimp only
  rw [hbusy]

/-- The purge empties the channel. -/
theorem purge_proceeds (h : QueueLocal q) (hbusy : q.sending = some (job, .purge)) :
    ∃ q', Proceeds q q' ∧ QueueLocal q' ∧ q'.sending = some (job, .send) ∧ q'.jobsCh.buf = [] := by
  -- One job fewer with each round.
  generalize hn : q.jobsCh.buf.length = n
  induction n using Nat.strong_induction_on generalizing q with
  | _ n ih =>
    have hlocal := (proceed_effect h hbusy).1
    have hround := Proceeds.single hbusy
    unfold JobQueue.proceed at hlocal hround
    obtain ⟨old, c, hrecv, hbuf, -⟩ | ⟨hrecv, hbuf⟩ := h.recv_cases hbusy
    · simp only [hrecv] at hlocal hround
      have hlen : c.buf.length < n := by
        rw [← hn, hbuf]
        exact Nat.lt_succ_self _
      obtain ⟨q', hrest, hq'⟩ := ih _ hlen hlocal hbusy rfl
      exact ⟨q', hround.trans hrest, hq'⟩
    · simp only [hrecv] at hlocal hround
      exact ⟨_, hround, hlocal, rfl, hbuf⟩

/-- The sends: at once if there is room, and otherwise behind the others when
the oldest job has given way. -/
theorem send_proceeds (h : QueueLocal q) (hbusy : q.sending = some (job, .send)) :
    ∃ q', Proceeds q q' ∧ q'.sending = none ∧
      q'.jobsCh.buf = if q.jobsCh.buf.length < jobsChCap then q.jobsCh.buf ++ [job]
        else q.jobsCh.buf.drop 1 ++ [job] := by
  have hlocal := (proceed_effect h hbusy).1
  have hfirst := Proceeds.single hbusy
  unfold JobQueue.proceed at hlocal hfirst
  obtain ⟨c, hsend, hbuf, -⟩ | ⟨hsend, hfull⟩ := h.send_cases hbusy
  · simp only [hsend] at hfirst
    have hroom : q.jobsCh.buf.length < jobsChCap := by
      have hle := c.bounded
      rwa [hbuf, length_append] at hle
    refine ⟨_, hfirst.trans (Proceeds.single rfl), rfl, ?_⟩
    rw [if_pos hroom]
    exact hbuf
  · simp only [hsend] at hlocal hfirst
    have hlocal' := (proceed_effect hlocal rfl).1
    have hdrop := hfirst.trans (Proceeds.single rfl)
    unfold JobQueue.proceed at hlocal' hdrop
    obtain ⟨old, c, hrecv, hbuf, -⟩ | ⟨-, hbuf⟩ := hlocal.recv_cases rfl
    · simp only [hrecv] at hlocal' hdrop
      have hresend := hdrop.trans (Proceeds.single rfl)
      unfold JobQueue.proceed at hresend
      rw [show q.jobsCh.buf = old :: c.buf from hbuf] at hfull ⊢
      obtain ⟨c', hsend', hbuf', -⟩ | ⟨-, hfull'⟩ := hlocal'.send_cases rfl
      · simp only [hsend'] at hresend
        refine ⟨_, hresend.trans (Proceeds.single rfl), rfl, ?_⟩
        rw [if_neg (by omega)]
        exact hbuf'
      · -- The oldest job has made room.
        exact absurd (hfull.trans hfull'.symm) (Nat.succ_ne_self _)
    · rw [show q.jobsCh.buf = [] from hbuf] at hfull
      cases hfull

/-- **Refinement.** In every reachable state of an open queue, a call that
nobody interferes with does in its steps what `sendJob` does at once. -/
theorem sendJob_refined (moves : List QueueMove) (hreach : jobQueue.run JobQueue.start moves = q)
    (hidle : q.sending = none) (hopen : q.closed = false) (job : Job) :
    ∃ q', Proceeds (q.sendJob job).1 q' ∧ q'.sending = none ∧
      q'.jobsCh.buf.map fst = sendJob (q.jobsCh.buf.map fst) job := by
  have h : QueueLocal q := hreach ▸ (queueInv_run moves).here
  have hlocal := (sendJob_effect h job).1
  rw [q.sendJob_of_open hidle hopen] at hlocal ⊢
  unfold sendJob
  dsimp only
  cases hclean : job.cleanJobs with
  | true =>
    rw [hclean] at hlocal
    obtain ⟨q₁, hpurge, hlocal₁, hbusy₁, hempty⟩ := purge_proceeds hlocal rfl
    obtain ⟨q₂, hsend, hdone, hbuf⟩ := send_proceeds hlocal₁ hbusy₁
    refine ⟨q₂, hpurge.trans hsend, hdone, ?_⟩
    rw [hbuf, hempty]
    rfl
  | false =>
    rw [hclean] at hlocal
    obtain ⟨q₂, hsend, hdone, hbuf⟩ := send_proceeds hlocal rfl
    refine ⟨q₂, hsend, hdone, ?_⟩
    rw [hbuf]
    simp only [Bool.false_eq_true, if_false, length_map]
    split <;> simp

def sampleJobs : List Job := (range 8).map fun i => { Job.zero with jobID := [UInt8.ofNat i] }

def fillQueue : List QueueMove := sampleJobs.flatMap fun job => [.sendJob job, .proceed, .proceed]

/-- A full buffer, with and without `clean_jobs`. -/
theorem sendJob_refined_full :
    (∃ q', Proceeds ((jobQueue.run JobQueue.start fillQueue).sendJob
        { Job.zero with cleanJobs := true }).1 q' ∧ q'.sending = none ∧
      q'.jobsCh.buf.map fst = [{ Job.zero with cleanJobs := true }]) ∧
    ∃ q', Proceeds ((jobQueue.run JobQueue.start fillQueue).sendJob Job.zero).1 q' ∧
      q'.sending = none ∧ q'.jobsCh.buf.map fst = sampleJobs.drop 1 ++ [Job.zero] :=
  ⟨sendJob_refined fillQueue rfl rfl rfl _, sendJob_refined fillQueue rfl rfl rfl _⟩

end

end Otedama.Poolproto
