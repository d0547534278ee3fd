import Otedama.Engine.SessionV2

/-! # Which jobs are hashed, and on which tip

A job may be hashed only on a tip it is valid for. What that means is
said by the history of frames: the tip is the one of the latest
`SetNewPrevHash`, and the job was either sent for that tip (it came
after it, with an `ntime_start`) or was announced before it and is named
by it.

The session decides with a bounded job table, an active job and a stored
ntime. `TipInv` relates these variables to the history; every call of
`updateWork` repeats them, so it is justified by the history. -/

namespace Otedama.Engine

open Miner Stratum List Option

/-! ## Histories -/

/-- The `SetNewPrevHash` an input carries. -/
def tipOf (e : Env × Event) : Option SetNewPrevHash :=
  match e.2 with
  | .poolMsg (.setNewPrevHash p) => some p
  | _ => none

/-- The `NewMiningJob` an input carries. -/
def jobOf (e : Env × Event) : Option NewMiningJob :=
  match e.2 with
  | .poolMsg (.newMiningJob j) => some j
  | _ => none

/-- A tip is not a job. -/
theorem jobOf_eq_none_of_tip {e : Env × Event} {p : SetNewPrevHash} (h : tipOf e = some p) :
    jobOf e = none := by
  obtain ⟨_, ev⟩ := e
  cases ev with
  | poolMsg msg =>
    cases msg with
    | newMiningJob j => cases h
    | _ => rfl
  | _ => rfl

/-- A channel-scoped frame names our channel. -/
def OnChannel (opts : SessionOpts) (e : Env × Event) : Prop :=
  ∀ msg cid, e.2 = .poolMsg msg → channelIDOf msg = some cid → cid = opts.chanID

/-- The job was received, and every tip since then names it. -/
def Received (hist : List (Env × Event)) (job : NewMiningJob) : Prop :=
  ∃ before e since, hist = before ++ e :: since ∧ jobOf e = some job ∧
    ∀ e' ∈ since, ∀ q, tipOf e' = some q → q.jobID = job.jobID

/-- Work for `job` on `prevHash` and `nBits`, at `ntime`, is justified by the
tip `p`, which came after the inputs `before` and was followed by the
inputs `since`. -/
structure IssuedUnder (opts : SessionOpts) (s₀ : SessionV2) (before : List (Env × Event))
    (p : SetNewPrevHash) (since : List (Env × Event)) (job : NewMiningJob) (prevHash : Bytes32)
    (nBits ntime : UInt32) : Prop where
  /-- `p` is the latest tip. -/
  latest : ∀ e ∈ since, tipOf e = none
  prevHash_eq : prevHash = p.prevHash
  nBits_eq : nBits = p.nBits
  /-- The job came after the tip, for the tip; or the tip names it and it was
      still in the job table when the tip came. -/
  valid : (∃ e ∈ since, jobOf e = some job ∧ job.hasNtimeStart = true) ∨
    (p.jobID = job.jobID ∧ ((runSession opts).run s₀ before).jobs.lookup p.jobID = some job)
  ntime_job : job.hasNtimeStart = true → job.ntimeStart ≤ ntime
  /-- A job that was named and did not come again is not hashed below the
      tip's own ntime. -/
  ntime_tip : p.jobID = job.jobID →
    (∀ e ∈ since, ∀ j, jobOf e = some j → j.jobID ≠ job.jobID) → p.ntimeStart ≤ ntime

/-- Some tip of the history justifies the work. -/
def Justified (opts : SessionOpts) (s₀ : SessionV2) (hist : List (Env × Event))
    (job : NewMiningJob) (prevHash : Bytes32) (nBits ntime : UInt32) : Prop :=
  ∃ before e p since, hist = before ++ e :: since ∧ tipOf e = some p ∧
    IssuedUnder opts s₀ before p since job prevHash nBits ntime

/-- Of two different positions of a list, one lies behind the other. -/
theorem mem_behind_or {α : Type*} {l₁ r₁ l₂ r₂ : List α} {x y : α}
    (h : l₁ ++ x :: r₁ = l₂ ++ y :: r₂) (hne : x ≠ y) : y ∈ r₁ ∨ x ∈ r₂ := by
  -- One of the two positions comes first; `mid` is what lies between them.
  rcases append_eq_append_iff.mp h with ⟨mid, _, hmid⟩ | ⟨mid, _, hmid⟩
  · cases mid with
    | nil => exact absurd (cons.inj hmid).1 hne
    | cons z mid => exact .inl (by rw [(cons.inj hmid).2]; simp)
  · cases mid with
    | nil => exact absurd (cons.inj hmid).1.symm hne
    | cons z mid => exact .inr (by rw [(cons.inj hmid).2]; simp)

/-- A received job stays received until a tip names another one. -/
theorem Received.snoc {hist : List (Env × Event)} {job : NewMiningJob} {e : Env × Event}
    (h : Received hist job) (htip : ∀ q, tipOf e = some q → q.jobID = job.jobID) :
    Received (hist ++ [e]) job := by
  obtain ⟨before, e₀, since, rfl, hjob, hnamed⟩ := h
  refine ⟨before, e₀, since ++ [e], by simp, hjob, ?_⟩
  intro e' he' q hq
  rcases mem_append.mp he' with he' | he'
  · exact hnamed e' he' q hq
  · obtain rfl := mem_singleton.mp he'
    exact htip q hq

/-- An input that is not a tip takes no justification away. -/
theorem Justified.snoc {opts : SessionOpts} {s₀ : SessionV2} {hist : List (Env × Event)}
    {job : NewMiningJob} {prevHash : Bytes32} {nBits ntime : UInt32} {e : Env × Event}
    (h : Justified opts s₀ hist job prevHash nBits ntime) (htip : tipOf e = none) :
    Justified opts s₀ (hist ++ [e]) job prevHash nBits ntime := by
  obtain ⟨before, e₀, p, since, rfl, hp, hunder⟩ := h
  refine ⟨before, e₀, p, since ++ [e], by simp, hp, ?_, hunder.prevHash_eq, hunder.nBits_eq, ?_,
    hunder.ntime_job, ?_⟩
  · intro e' he'
    rcases mem_append.mp he' with he' | he'
    · exact hunder.latest e' he'
    · obtain rfl := mem_singleton.mp he'
      exact htip
  · rcases hunder.valid with ⟨e', he', hjob⟩ | hnamed
    · exact .inl ⟨e', mem_append_left _ he', hjob⟩
    · exact .inr hnamed
  · intro hid hnot
    exact hunder.ntime_tip hid fun e' he' => hnot e' (mem_append_left _ he')

/-! ## The job table -/

/-- Eviction only removes jobs. -/
theorem evictOldest_lookup {id : UInt32} {job : NewMiningJob} (order : List UInt32) :
    ∀ {jobs : GoMap UInt32 NewMiningJob},
      (evictOldest jobs order).1.lookup id = some job → jobs.lookup id = some job := by
  induction order with
  | nil => exact fun h => h
  | cons oldest order ih =>
    intro jobs h
    rw [evictOldest] at h
    split at h
    · have herase := ih h
      by_cases hid : id = oldest
      · subst hid
        rw [AList.lookup_erase] at herase
        cases herase
      · rwa [AList.lookup_erase_ne hid] at herase
    · exact h

/-- What is in the table after a job was stored: that job, or one that was
there before. -/
theorem storeBoundedJob_lookup {jobs : GoMap UInt32 NewMiningJob} {order : List UInt32}
    {j job : NewMiningJob} {id : UInt32}
    (h : (storeBoundedJob jobs order j).1.lookup id = some job) :
    (id = j.jobID ∧ job = j) ∨ jobs.lookup id = some job := by
  rcases GoMap.lookup_insert_cases (evictOldest_lookup _ h) with hnew | ⟨-, hold⟩
  · exact .inl hnew
  · exact .inr hold

/-! ## The invariant -/

/-- How the job variables of a live session follow from its history. -/
structure TipInv (opts : SessionOpts) (s₀ : SessionV2) (hist : List (Env × Event))
    (s : SessionV2) : Prop where
  state : s = (runSession opts).run s₀ hist
  tip : s.havePrev = true → ∃ before e p since, hist = before ++ e :: since ∧ tipOf e = some p ∧
    (∀ e' ∈ since, tipOf e' = none) ∧ s.prevHash = p.prevHash ∧ s.prevNBits = p.nBits
  jobs : ∀ id job, s.jobs.lookup id = some job → job.jobID = id ∧ Received hist job
  active : ∀ job, s.active = some job → Received hist job ∧
    Justified opts s₀ hist job s.prevHash s.prevNBits s.activeNTime

section

variable {opts : SessionOpts} {s₀ s : SessionV2} {hist : List (Env × Event)} {env : Env}

/-- The job variables are the same in both states. -/
structure SameJobs (s s' : SessionV2) : Prop where
  havePrev : s'.havePrev = s.havePrev
  prevHash : s'.prevHash = s.prevHash
  prevNBits : s'.prevNBits = s.prevNBits
  jobs : s'.jobs = s.jobs
  active : s'.active = s.active
  activeNTime : s'.activeNTime = s.activeNTime

/-- The tip part of the invariant survives inputs that are not tips. -/
theorem TipInv.tip_snoc (hinv : TipInv opts s₀ hist s) {e : Env × Event} (htip : tipOf e = none)
    (hprev : s.havePrev = true) :
    ∃ before e' p since, hist ++ [e] = before ++ e' :: since ∧ tipOf e' = some p ∧ e ∈ since ∧
      (∀ x ∈ since, tipOf x = none) ∧ s.prevHash = p.prevHash ∧ s.prevNBits = p.nBits := by
  obtain ⟨before, e', p, since, rfl, hp, hlatest, hhash, hbits⟩ := hinv.tip hprev
  refine ⟨before, e', p, since ++ [e], by simp, hp, by simp, ?_, hhash, hbits⟩
  intro x hx
  rcases mem_append.mp hx with hx | hx
  · exact hlatest x hx
  · obtain rfl := mem_singleton.mp hx
    exact htip

/-- An input that is neither a tip nor changes a job variable. -/
theorem TipInv.same {s' : SessionV2} {e : Env × Event} (hinv : TipInv opts s₀ hist s)
    (hstate : s' = (runSession opts).run s₀ (hist ++ [e]))
    (htip : tipOf e = none) (hsame : SameJobs s s') : TipInv opts s₀ (hist ++ [e]) s' := by
  have hnone : ∀ {q : SetNewPrevHash} {id : UInt32}, tipOf e = some q → q.jobID = id := by
    intro q id hq
    rw [htip] at hq
    cases hq
  refine ⟨hstate, ?_, ?_, ?_⟩
  · intro hprev
    rw [hsame.havePrev] at hprev
    obtain ⟨before, e', p, since, heq, hp, _, hlatest, hhash, hbits⟩ := hinv.tip_snoc htip hprev
    exact ⟨before, e', p, since, heq, hp, hlatest, hsame.prevHash.trans hhash,
      hsame.prevNBits.trans hbits⟩
  · intro id job hlook
    rw [hsame.jobs] at hlook
    obtain ⟨hid, hrec⟩ := hinv.jobs id job hlook
    exact ⟨hid, hrec.snoc fun q hq => hnone hq⟩
  · intro job hactive
    rw [hsame.active] at hactive
    obtain ⟨hrec, hjust⟩ := hinv.active job hactive
    rw [hsame.prevHash, hsame.prevNBits, hsame.activeNTime]
    exact ⟨hrec.snoc fun q hq => hnone hq, hjust.snoc htip⟩

/-- A new job. -/
theorem TipInv.newMiningJob (hinv : TipInv opts s₀ hist s) (j : NewMiningJob)
    (hstate : (onNewMiningJob env s j).1 =
      (runSession opts).run s₀ (hist ++ [(env, .poolMsg (.newMiningJob j))])) :
    TipInv opts s₀ (hist ++ [(env, .poolMsg (.newMiningJob j))]) (onNewMiningJob env s j).1 := by
  have htip : tipOf (env, .poolMsg (.newMiningJob j)) = none := rfl
  have hrecv : Received (hist ++ [(env, .poolMsg (.newMiningJob j))]) j :=
    ⟨hist, _, [], rfl, rfl, forall_mem_nil _⟩
  -- The table gains `j` in both branches.
  have hjobs : ∀ id job, (storeBoundedJob s.jobs s.jobOrder j).1.lookup id = some job →
      job.jobID = id ∧ Received (hist ++ [(env, .poolMsg (.newMiningJob j))]) job := by
    intro id job hlook
    rcases storeBoundedJob_lookup hlook with ⟨rfl, rfl⟩ | hlook
    · exact ⟨rfl, hrecv⟩
    · obtain ⟨hid, hrec⟩ := hinv.jobs id job hlook
      exact ⟨hid, hrec.snoc nofun⟩
  unfold onNewMiningJob at hstate ⊢
  dsimp only at hstate ⊢
  split
  · -- A job for the current tip: it becomes active at its own ntime.
    next hguard =>
    rw [if_pos hguard] at hstate
    have hboth : j.hasNtimeStart = true ∧ s.havePrev = true := by simpa using hguard
    obtain ⟨before, e', p, since, heq, hp, hmem, hlatest, hhash, hbits⟩ :=
      hinv.tip_snoc htip hboth.2
    refine ⟨hstate, fun _ => ⟨before, e', p, since, heq, hp, hlatest, hhash, hbits⟩, hjobs, ?_⟩
    intro job hactive
    obtain rfl : j = job := some.inj hactive
    refine ⟨hrecv, before, e', p, since, heq, hp, hlatest, hhash, hbits, ?_, ?_, ?_⟩
    · exact .inl ⟨_, hmem, rfl, hboth.1⟩
    · intro _
      exact UInt32.le_refl _
    · -- It has just come again, so the tip's ntime no longer binds it.
      intro _ hnot
      exact absurd rfl (hnot _ hmem j rfl)
  · -- A future job, or no tip yet: the active job stays what it was.
    next hguard =>
    rw [if_neg hguard] at hstate
    refine ⟨hstate, ?_, hjobs, ?_⟩
    · intro hprev
      obtain ⟨before, e', p, since, heq, hp, _, hlatest, hhash, hbits⟩ := hinv.tip_snoc htip hprev
      exact ⟨before, e', p, since, heq, hp, hlatest, hhash, hbits⟩
    · intro job hactive
      obtain ⟨hrec, hjust⟩ := hinv.active job hactive
      exact ⟨hrec.snoc nofun, hjust.snoc htip⟩

/-- A new tip. -/
theorem TipInv.setNewPrevHash (hinv : TipInv opts s₀ hist s) (p : SetNewPrevHash)
    (hstate : (onSetNewPrevHash env s p).1 =
      (runSession opts).run s₀ (hist ++ [(env, .poolMsg (.setNewPrevHash p))])) :
    TipInv opts s₀ (hist ++ [(env, .poolMsg (.setNewPrevHash p))])
      (onSetNewPrevHash env s p).1 := by
  unfold onSetNewPrevHash at hstate ⊢
  cases hlook : s.jobs.lookup p.jobID with
  | some named =>
    simp only [hlook] at hstate
    obtain ⟨hid, hrec⟩ := hinv.jobs p.jobID named hlook
    have hrecv : Received (hist ++ [(env, .poolMsg (.setNewPrevHash p))]) named := by
      apply hrec.snoc
      rintro q ⟨⟩
      exact hid.symm
    refine ⟨hstate, fun _ => ⟨hist, _, p, [], rfl, rfl, forall_mem_nil _, rfl, rfl⟩, ?_, ?_⟩
    · -- The table now holds the named job only.
      intro id job hjob
      obtain ⟨rfl, rfl⟩ := GoMap.lookup_singleton_eq_some hjob
      exact ⟨hid, hrecv⟩
    · intro job hactive
      obtain rfl : named = job := some.inj hactive
      refine ⟨hrecv, hist, _, p, [], rfl, rfl, forall_mem_nil _, rfl, rfl, ?_, ?_, ?_⟩
      · exact .inr ⟨hid.symm, hinv.state ▸ hlook⟩
      · -- The later one of the two ntimes is used.
        intro hntime
        show named.ntimeStart ≤
          if named.hasNtimeStart && p.ntimeStart < named.ntimeStart then named.ntimeStart
          else p.ntimeStart
        split
        · exact UInt32.le_refl _
        · next hlt =>
          rw [hntime, Bool.true_and, decide_eq_true_eq] at hlt
          exact UInt32.not_lt.mp hlt
      · intro _ _
        show p.ntimeStart ≤
          if named.hasNtimeStart && p.ntimeStart < named.ntimeStart then named.ntimeStart
          else p.ntimeStart
        split
        · next hlt =>
          have hlt' : p.ntimeStart < named.ntimeStart := by
            have hboth : named.hasNtimeStart = true ∧ p.ntimeStart < named.ntimeStart := by
              simpa using hlt
            exact hboth.2
          exact UInt32.le_of_lt hlt'
        · exact UInt32.le_refl _
  | none =>
    -- The named job is unknown: table and active job are cleared.
    simp only [hlook] at hstate
    refine ⟨hstate, fun _ => ⟨hist, _, p, [], rfl, rfl, forall_mem_nil _, rfl, rfl⟩, ?_, ?_⟩
    · intro id job hjob
      cases hjob
    · intro job hactive
      cases hactive

/-- A new target. -/
theorem TipInv.setTarget (hinv : TipInv opts s₀ hist s) (t : SetTarget)
    (hstate : (onSetTarget env s t).1 =
      (runSession opts).run s₀ (hist ++ [(env, .poolMsg (.setTarget t))])) :
    TipInv opts s₀ (hist ++ [(env, .poolMsg (.setTarget t))]) (onSetTarget env s t).1 := by
  refine hinv.same hstate rfl ?_
  -- Re-issuing the active job stores the values that are there already.
  unfold onSetTarget
  dsimp only
  split
  · next j hactive =>
    split
    · exact ⟨rfl, rfl, rfl, rfl, hactive.symm, rfl⟩
    · exact ⟨rfl, rfl, rfl, rfl, rfl, rfl⟩
  · exact ⟨rfl, rfl, rfl, rfl, rfl, rfl⟩

/-- The remaining frames and events leave the job variables alone. -/
theorem handleMsg_sameJobs (env : Env) (s : SessionV2) {msg : Message}
    (hjob : ∀ j, msg ≠ .newMiningJob j) (htip : ∀ p, msg ≠ .setNewPrevHash p)
    (htarget : ∀ t, msg ≠ .setTarget t) : SameJobs s (handleMsg env s msg).1 := by
  cases msg with
  | newMiningJob j => exact absurd rfl (hjob j)
  | setNewPrevHash p => exact absurd rfl (htip p)
  | setTarget t => exact absurd rfl (htarget t)
  | submitSharesSuccess r =>
    simp only [handleMsg, onSubmitSharesSuccess]
    split <;> exact ⟨rfl, rfl, rfl, rfl, rfl, rfl⟩
  | submitSharesError e =>
    simp only [handleMsg, onSubmitSharesError]
    split
    · exact ⟨rfl, rfl, rfl, rfl, rfl, rfl⟩
    · split <;> exact ⟨rfl, rfl, rfl, rfl, rfl, rfl⟩
  | closeChannel cc => exact ⟨rfl, rfl, rfl, rfl, rfl, rfl⟩
  | _ =>
    simp only [handleMsg, misplacedMsgType]
    split <;> exact ⟨rfl, rfl, rfl, rfl, rfl, rfl⟩

theorem onShare_sameJobs (opts : SessionOpts) (env : Env) (s : SessionV2) (sh : Share) :
    SameJobs s (onShare opts env s sh).1 := by
  unfold onShare
  dsimp only
  split
  · exact ⟨rfl, rfl, rfl, rfl, rfl, rfl⟩
  · split <;> exact ⟨rfl, rfl, rfl, rfl, rfl, rfl⟩

/-- One turn of a live session keeps the invariant. -/
theorem TipInv.step (hinv : TipInv opts s₀ hist s) (hlive : s.ended = none) {e : Env × Event}
    (hchan : OnChannel opts e) : TipInv opts s₀ (hist ++ [e]) (SessionV2.step opts s e).1 := by
  have hstate : (SessionV2.step opts s e).1 = (runSession opts).run s₀ (hist ++ [e]) := by
    rw [Machine.run_append, ← hinv.state]
    rfl
  obtain ⟨env, ev⟩ := e
  cases ev with
  | poolMsg msg =>
    -- Frames on our channel pass the guard, and so do unscoped ones.
    have hguard : foreignFrame opts msg = false := by
      cases hcid : channelIDOf msg with
      | none => simp [foreignFrame, hcid]
      | some cid => exact foreignFrame_own (hchan msg cid rfl hcid ▸ hcid)
    rw [SessionV2.step_poolMsg hlive env hguard] at hstate ⊢
    cases msg with
    | newMiningJob j => exact hinv.newMiningJob j hstate
    | setNewPrevHash p => exact hinv.setNewPrevHash p hstate
    | setTarget t => exact hinv.setTarget t hstate
    | _ =>
      refine hinv.same hstate rfl (handleMsg_sameJobs env s ?_ ?_ ?_)
      all_goals
        intro _ heq
        cases heq
  | share sh =>
    refine hinv.same hstate rfl ?_
    simp only [SessionV2.step, hlive, isSome_none, Bool.false_eq_true, if_false]
    exact onShare_sameJobs opts env s sh
  | statsTick =>
    refine hinv.same hstate rfl ?_
    simp only [SessionV2.step, hlive, isSome_none, Bool.false_eq_true, if_false, onStatsTick]
    split <;> exact ⟨rfl, rfl, rfl, rfl, rfl, rfl⟩
  | _ =>
    refine hinv.same hstate rfl ?_
    simp only [SessionV2.step, hlive, isSome_none, Bool.false_eq_true, if_false]
    exact ⟨rfl, rfl, rfl, rfl, rfl, rfl⟩

end

/-! ## Calls of `updateWork` -/

/-- Settling submits makes no other calls than latency records. -/
theorem settleUpTo_out {last : UInt32} {now : Nat} {times : GoMap UInt32 Nat}
    {targets : GoMap UInt32 Hash} : ∀ eff ∈ (settleUpTo last now times targets).out,
      ∃ seq sent, eff = .recordLatency seq sent now := by
  -- Generalised over the accumulator for the induction on the entries.
  have hfold : ∀ (entries : List ((_ : UInt32) × Nat)) (a : Settling),
      (∀ eff ∈ a.out, ∃ seq sent, eff = .recordLatency seq sent now) →
      ∀ eff ∈ (entries.foldl (settleOne last now) a).out,
        ∃ seq sent, eff = .recordLatency seq sent now := by
    intro entries
    induction entries with
    | nil => exact fun a ha => ha
    | cons entry entries ih =>
      intro a ha
      apply ih
      unfold settleOne
      split
      · intro eff heff
        rcases mem_append.mp heff with heff | heff
        · exact ha eff heff
        · exact ⟨_, _, mem_singleton.mp heff⟩
      · exact ha
  exact hfold _ _ nofun

section

variable {opts : SessionOpts} {s : SessionV2} {env : Env} {job : NewMiningJob}
  {prevHash : Bytes32} {nBits ntime : UInt32} {shareTarget : Hash}

/-- The job variables are those of the call. -/
def Repeats (s : SessionV2) (job : NewMiningJob) (prevHash : Bytes32) (nBits ntime : UInt32) :
    Prop :=
  s.active = some job ∧ s.prevHash = prevHash ∧ s.prevNBits = nBits ∧ s.activeNTime = ntime

theorem startJob_repeats {j : NewMiningJob} {nt : UInt32}
    (hcall : .updateWork job prevHash nBits ntime shareTarget ∈ (startJob env s j nt).2) :
    Repeats (startJob env s j nt).1 job prevHash nBits ntime := by
  simp only [startJob] at hcall
  split at hcall
  · cases hcall
  · obtain ⟨rfl, rfl, rfl, rfl, rfl⟩ : job = j ∧ prevHash = s.prevHash ∧ nBits = s.prevNBits ∧
        ntime = nt ∧ shareTarget = s.shareTarget := by
      simpa using hcall
    exact ⟨rfl, rfl, rfl, rfl⟩

theorem handleMsg_repeats {msg : Message}
    (hcall : .updateWork job prevHash nBits ntime shareTarget ∈ (handleMsg env s msg).2) :
    Repeats (handleMsg env s msg).1 job prevHash nBits ntime := by
  cases msg with
  | newMiningJob j =>
    simp only [handleMsg, onNewMiningJob] at hcall ⊢
    split
    · next hguard =>
      rw [if_pos hguard] at hcall
      exact startJob_repeats hcall
    · next hguard =>
      rw [if_neg hguard] at hcall
      cases hcall
  | setNewPrevHash p =>
    simp only [handleMsg, onSetNewPrevHash] at hcall ⊢
    cases hlook : s.jobs.lookup p.jobID with
    | some named =>
      simp only [hlook] at hcall ⊢
      exact startJob_repeats hcall
    | none =>
      simp only [hlook] at hcall
      cases mem_singleton.mp hcall
  | setTarget t =>
    simp only [handleMsg, onSetTarget] at hcall ⊢
    cases hactive : s.active with
    | some j =>
      simp only [hactive] at hcall ⊢
      split
      · next hprev =>
        rw [if_pos hprev] at hcall
        exact startJob_repeats hcall
      · next hprev =>
        rw [if_neg hprev] at hcall
        cases hcall
    | none =>
      simp only [hactive] at hcall
      cases hcall
  | submitSharesSuccess r =>
    simp only [handleMsg, onSubmitSharesSuccess] at hcall
    split at hcall
    · cases hcall
    · obtain ⟨_, _, heq⟩ := settleUpTo_out _ hcall
      cases heq
  | submitSharesError e =>
    simp only [handleMsg, onSubmitSharesError] at hcall
    split at hcall
    · cases hcall
    · split at hcall
      · cases hcall
      · cases mem_singleton.mp hcall
  | _ => cases hcall

/-- Every call of `updateWork` is made by a live session and repeats the job
variables of the state that the turn ends in. -/
theorem step_repeats {e : Env × Event}
    (hcall : .updateWork job prevHash nBits ntime shareTarget ∈ (SessionV2.step opts s e).2) :
    s.ended = none ∧ Repeats (SessionV2.step opts s e).1 job prevHash nBits ntime := by
  cases hended : s.ended with
  | some why =>
    simp only [SessionV2.step, hended, isSome_some, if_true] at hcall
    cases hcall
  | none =>
    refine ⟨rfl, ?_⟩
    obtain ⟨env, ev⟩ := e
    simp only [SessionV2.step, hended, isSome_none, Bool.false_eq_true, if_false]
      at hcall ⊢
    cases ev with
    | poolMsg msg =>
      simp only [onPoolMsg] at hcall ⊢
      split
      · next hguard =>
        rw [if_pos hguard] at hcall
        cases hcall
      · next hguard =>
        rw [if_neg hguard] at hcall
        exact handleMsg_repeats hcall
    | share sh =>
      simp only [onShare] at hcall
      split at hcall
      · cases hcall
      · split at hcall
        · cases hcall
        · cases mem_singleton.mp hcall
    | _ => cases hcall

end

/-! ## Whole runs -/

theorem TipInv.start (opts : SessionOpts) (target : Hash) (m : ShareMetrics) :
    TipInv opts (SessionV2.start target m) [] (SessionV2.start target m) := by
  refine ⟨rfl, ?_, ?_, ?_⟩
  · intro hprev
    cases hprev
  · intro id job hlook
    cases hlook
  · intro job hactive
    cases hactive

/-- The invariant holds as long as the session lives. -/
theorem run_tipInv (opts : SessionOpts) (target : Hash) (m : ShareMetrics)
    (hist : List (Env × Event)) (hchan : ∀ e ∈ hist, OnChannel opts e) :
    let s₀ := SessionV2.start target m
    ((runSession opts).run s₀ hist).ended = none →
      TipInv opts s₀ hist ((runSession opts).run s₀ hist) := by
  intro s₀
  exact (runSession opts).run_history_live (P := TipInv opts s₀) (Q := OnChannel opts)
    (fun s e hdead => SessionV2.step_ended hdead e) (TipInv.start opts target m)
    (fun _ _ _ hown hlive hinv => hinv.step hlive hown) hist hchan

/-- **Work is only issued for a job that is valid for the current tip.**  In
every run over frames on our channel, every call of `updateWork` is
justified by the latest `SetNewPrevHash`. In particular a future job is
hashed only after a tip named it, and a job that a tip did not name is
hashed only if it came again after that tip. -/
theorem updateWork_justified (opts : SessionOpts) (target : Hash) (m : ShareMetrics)
    (hist : List (Env × Event)) (e : Env × Event)
    (hchan : ∀ x ∈ hist ++ [e], OnChannel opts x) (job : NewMiningJob) (prevHash : Bytes32)
    (nBits ntime : UInt32) (shareTarget : Hash) :
    let s₀ := SessionV2.start target m
    .updateWork job prevHash nBits ntime shareTarget ∈
      ((runSession opts).step ((runSession opts).run s₀ hist) e).2 →
    (∃ before e' p since, hist ++ [e] = before ++ e' :: since ∧ tipOf e' = some p ∧
      IssuedUnder opts s₀ before p since job prevHash nBits ntime ∧
      (job.hasNtimeStart = false → p.jobID = job.jobID)) ∧
    (∀ before e' q since, hist ++ [e] = before ++ e' :: since → tipOf e' = some q →
      q.jobID ≠ job.jobID → ∃ x ∈ since, jobOf x = some job) := by
  intro s₀ hcall
  obtain ⟨hlive, hactive, rfl, rfl, rfl⟩ := step_repeats hcall
  have hinv := (run_tipInv opts target m hist (fun x hx => hchan x (by simp [hx])) hlive).step
    hlive (hchan e (by simp))
  obtain ⟨hrec, hjust⟩ := hinv.active job hactive
  constructor
  · obtain ⟨before, e', p, since, heq, hp, hunder⟩ := hjust
    refine ⟨before, e', p, since, heq, hp, hunder, ?_⟩
    intro hfuture
    rcases hunder.valid with ⟨_, _, _, hntime⟩ | ⟨hid, _⟩
    · rw [hfuture] at hntime
      cases hntime
    · exact hid
  · -- Compare the tip `q` with the place where the job was last received.
    intro before e' q since heq hq hother
    obtain ⟨before', e'', since', heq', hjob, hnamed⟩ := hrec
    have hne : e' ≠ e'' := by
      rintro rfl
      rw [jobOf_eq_none_of_tip hq] at hjob
      cases hjob
    rcases mem_behind_or (heq.symm.trans heq') hne with hmem | hmem
    · exact ⟨e'', hmem, hjob⟩
    · -- A tip behind the last receipt would name the job.
      exact absurd (hnamed e' hmem q hq) hother

/-- A future job becomes active when a tip names it. -/
theorem sampleTip_justified :
    (∃ before e' p since,
      [(calmEnv, .poolMsg (.newMiningJob sampleJob))] ++
        [(calmEnv, .poolMsg (.setNewPrevHash sampleTip))] = before ++ e' :: since ∧
      tipOf e' = some p ∧
      IssuedUnder sampleOpts (SessionV2.start Bytes.zero32 zeroMetrics) before p since sampleJob
        sampleTip.prevHash sampleTip.nBits 5 ∧
      (sampleJob.hasNtimeStart = false → p.jobID = sampleJob.jobID)) :=
  (updateWork_justified sampleOpts Bytes.zero32 zeroMetrics
    [(calmEnv, .poolMsg (.newMiningJob sampleJob))]
    (calmEnv, .poolMsg (.setNewPrevHash sampleTip))
    (by
      intro x hx msg cid hmsg hcid
      simp only [List.cons_append, List.nil_append, List.mem_cons, List.not_mem_nil,
        or_false] at hx
      rcases hx with rfl | rfl
      · obtain rfl : .newMiningJob sampleJob = msg := by simpa using hmsg
        exact (Option.some.inj hcid).symm
      · obtain rfl : .setNewPrevHash sampleTip = msg := by simpa using hmsg
        exact (Option.some.inj hcid).symm)
    sampleJob sampleTip.prevHash sampleTip.nBits 5 Bytes.zero32 (by decide)).1

end Otedama.Engine
