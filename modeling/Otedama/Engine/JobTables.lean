import Otedama.Engine.AdapterV2
import Otedama.Engine.TipHistory
import Otedama.Framework.BoundedFifo

/-! # The tables of outstanding jobs

Two loops hold the jobs that a later `SetNewPrevHash` may name: the
session (`jobs`, `jobOrder`) and the read loop of the adapter (`pending`,
`pendingOrder`). Each pairs a map with a slice of its keys that is
appended to, re-sliced by the eviction and truncated by a tip.

Both are tables of the library: a job is a `put`, a tip is a `keep`, and
all other inputs leave the table alone. What a table promises then holds
after every history of either loop. -/

namespace Otedama.Engine

open Miner Stratum BoundedFifo
open Poolproto.V2 (Sv2JobAssembler pendingCap)

/-! ## The session -/

def SessionV2.jobTable (s : SessionV2) : Table UInt32 NewMiningJob := ⟨s.jobs, s.jobOrder⟩

theorem evictOldest_eq (jobs : GoMap UInt32 NewMiningJob) (order : List UInt32) :
    evict jobsCap jobs order = ⟨(evictOldest jobs order).1, (evictOldest jobs order).2⟩ := by
  induction order generalizing jobs with
  | nil => rfl
  | cons id order ih =>
    unfold evict evictOldest
    split
    · exact ih (jobs.erase id)
    · rfl

section

variable (opts : SessionOpts) (env : Env) (s : SessionV2)

theorem jobTable_onNewMiningJob (j : NewMiningJob) :
    (onNewMiningJob env s j).1.jobTable = s.jobTable.put jobsCap j.jobID j := by
  have hstored : s.jobTable.put jobsCap j.jobID j =
      ⟨(storeBoundedJob s.jobs s.jobOrder j).1, (storeBoundedJob s.jobs s.jobOrder j).2⟩ := by
    rw [Table.put, evictOldest_eq]
    rfl
  rw [hstored]
  unfold onNewMiningJob
  dsimp only
  split <;> rfl

theorem jobTable_onSetNewPrevHash (p : SetNewPrevHash) :
    (onSetNewPrevHash env s p).1.jobTable = s.jobTable.keep p.jobID := by
  have hentries : s.jobTable.entries = s.jobs := rfl
  unfold onSetNewPrevHash Table.keep
  rw [hentries]
  cases s.jobs.lookup p.jobID <;> rfl

/-- The other frames do not concern the table. -/
theorem jobTable_handleMsg {msg : Message} (hjob : ∀ j, msg ≠ .newMiningJob j)
    (htip : ∀ p, msg ≠ .setNewPrevHash p) : (handleMsg env s msg).1.jobTable = s.jobTable := by
  cases msg with
  | newMiningJob j => exact absurd rfl (hjob j)
  | setNewPrevHash p => exact absurd rfl (htip p)
  | setTarget t =>
    dsimp only [handleMsg, onSetTarget]
    split
    · split <;> rfl
    · rfl
  | submitSharesSuccess r =>
    dsimp only [handleMsg, onSubmitSharesSuccess]
    split <;> rfl
  | submitSharesError e =>
    dsimp only [handleMsg, onSubmitSharesError]
    split
    · rfl
    · split <;> rfl
  | closeChannel cc => rfl
  | _ =>
    dsimp only [handleMsg, misplacedMsgType]
    split <;> rfl

theorem jobTable_onShare (sh : Share) : (onShare opts env s sh).1.jobTable = s.jobTable := by
  unfold onShare
  dsimp only
  split
  · rfl
  · split <;> rfl

/-- The job that a turn of the loop takes in: one on our channel, as long as
the session lives. -/
def jobTaken (e : Env × Event) : Option (UInt32 × NewMiningJob) :=
  match e.2 with
  | .poolMsg (.newMiningJob j) =>
      if s.ended.isSome || foreignFrame opts (.newMiningJob j) then none else some (j.jobID, j)
  | _ => none

/-- The job that a tip names. -/
def jobNamed (e : Env × Event) : Option UInt32 := (tipOf e).map fun p => p.jobID

/-- One turn of the session is an operation on its table. -/
theorem jobTable_step (e : Env × Event) :
    (jobTaken opts s e = none ∧ (SessionV2.step opts s e).1.jobTable = s.jobTable) ∨
    (∃ k v, jobTaken opts s e = some (k, v) ∧
      (SessionV2.step opts s e).1.jobTable = s.jobTable.put jobsCap k v) ∨
    ∃ k, jobTaken opts s e = none ∧ jobNamed e = some k ∧
      (SessionV2.step opts s e).1.jobTable = s.jobTable.keep k := by
  obtain ⟨env, ev⟩ := e
  by_cases hended : s.ended.isSome = true
  · left
    rw [SessionV2.step, if_pos hended]
    refine ⟨?_, rfl⟩
    unfold jobTaken
    split
    · rw [hended]
      rfl
    · rfl
  · have hlive : s.ended = none := by simpa using hended
    rw [SessionV2.step, if_neg hended]
    cases ev with
    | poolMsg msg =>
      dsimp only [onPoolMsg]
      cases hforeign : foreignFrame opts msg with
      | true =>
        -- A frame of another channel is dropped, whatever it is.
        left
        refine ⟨?_, by rw [if_pos rfl]⟩
        cases msg with
        | newMiningJob j => simp [jobTaken, hforeign]
        | _ => rfl
      | false =>
        rw [if_neg Bool.false_ne_true]
        cases msg with
        | newMiningJob j =>
          refine .inr (.inl ⟨j.jobID, j, ?_, jobTable_onNewMiningJob env s j⟩)
          simp [jobTaken, hforeign, hlive]
        | setNewPrevHash p =>
          exact .inr (.inr ⟨p.jobID, rfl, rfl, jobTable_onSetNewPrevHash env s p⟩)
        | _ =>
          refine .inl ⟨rfl, jobTable_handleMsg env s ?_ ?_⟩
          all_goals
            intro _ heq
            cases heq
    | share sh => exact .inl ⟨rfl, jobTable_onShare opts env s sh⟩
    | statsTick =>
      refine .inl ⟨rfl, ?_⟩
      dsimp only [onStatsTick]
      split <;> rfl
    | _ => exact .inl ⟨rfl, rfl⟩

end

/-- The table of the session after the inputs so far. -/
def sessionTable (opts : SessionOpts) (target : Hash) (m : ShareMetrics)
    (hist : List (Env × Event)) : Table UInt32 NewMiningJob :=
  ((runSession opts).run (SessionV2.start target m) hist).jobTable

/-- What the session takes in after the inputs so far. -/
def sessionTakes (opts : SessionOpts) (target : Hash) (m : ShareMetrics)
    (hist : List (Env × Event)) (e : Env × Event) : Option (UInt32 × NewMiningJob) :=
  jobTaken opts ((runSession opts).run (SessionV2.start target m) hist) e

theorem session_follows (opts : SessionOpts) (target : Hash) (m : ShareMetrics) :
    BoundedFifo.Follows jobsCap (sessionTable opts target m) (sessionTakes opts target m)
      jobNamed where
  start := rfl
  step hist e := by
    have hsnoc : sessionTable opts target m (hist ++ [e]) =
        (SessionV2.step opts ((runSession opts).run (SessionV2.start target m) hist) e).1.jobTable := by
      rw [sessionTable, Machine.run_append]
      rfl
    rw [hsnoc]
    exact jobTable_step opts _ e

/-- Jobs and tips do not end a session. -/
theorem live_of_jobs_and_tips (opts : SessionOpts) (target : Hash) (m : ShareMetrics)
    (hist : List (Env × Event)) (h : ∀ e ∈ hist, (jobOf e).isSome ∨ (tipOf e).isSome) :
    ((runSession opts).run (SessionV2.start target m) hist).ended = none := by
  refine (runSession opts).run_invariant (P := fun s => s.ended = none)
    (Q := fun e => (jobOf e).isSome ∨ (tipOf e).isSome) rfl ?_ hist h
  intro s e hframe hlive
  obtain ⟨env, ev⟩ := e
  show (SessionV2.step opts s (env, ev)).1.ended = none
  cases ev with
  | poolMsg msg =>
    simp only [SessionV2.step, hlive, Option.isSome_none, Bool.false_eq_true, if_false, onPoolMsg]
    split
    · exact hlive
    · cases msg with
      | newMiningJob j =>
        dsimp only [handleMsg, onNewMiningJob]
        split <;> exact hlive
      | setNewPrevHash p =>
        dsimp only [handleMsg, onSetNewPrevHash]
        split <;> exact hlive
      | _ => simp [jobOf, tipOf] at hframe
  | _ => simp [jobOf, tipOf] at hframe

/-! ## The adapter -/

def pendingTable (hist : List Message) : Table UInt32 NewMiningJob :=
  ⟨(Poolproto.V2.readLoop.run .init hist).pending, (Poolproto.V2.readLoop.run .init hist).pendingOrder⟩

/-- The adapter takes in every job. -/
def pendingTakes (_ : List Message) : Message → Option (UInt32 × NewMiningJob)
  | .newMiningJob j => some (j.jobID, j)
  | _ => none

def pendingNamed : Message → Option UInt32
  | .setNewPrevHash p => some p.jobID
  | _ => none

theorem adapter_follows :
    BoundedFifo.Follows pendingCap pendingTable pendingTakes pendingNamed where
  start := rfl
  step hist msg := by
    have hrun : Poolproto.V2.readLoop.run .init (hist ++ [msg]) =
        (Poolproto.V2.readLoop.step (Poolproto.V2.readLoop.run .init hist) msg).1 := by
      rw [Machine.run_append]
      rfl
    unfold pendingTable
    rw [hrun]
    generalize Poolproto.V2.readLoop.run .init hist = a
    cases msg with
    | newMiningJob j =>
      refine .inr (.inl ⟨j.jobID, j, rfl, ?_⟩)
      -- The eviction loop is that of the session.
      have hput : (⟨a.pending, a.pendingOrder⟩ : Table UInt32 NewMiningJob).put pendingCap j.jobID j =
          ⟨(Poolproto.V2.evict (a.pending.insert j.jobID j)
              (if j.jobID ∈ a.pending then a.pendingOrder else a.pendingOrder ++ [j.jobID])).1,
            (Poolproto.V2.evict (a.pending.insert j.jobID j)
              (if j.jobID ∈ a.pending then a.pendingOrder else a.pendingOrder ++ [j.jobID])).2⟩ := by
        rw [Table.put, evict_eq_evictOldest]
        exact evictOldest_eq _ _
      rw [hput]
      show (⟨(a.onNewMiningJob j).1.pending, (a.onNewMiningJob j).1.pendingOrder⟩ :
        Table UInt32 NewMiningJob) = _
      unfold Sv2JobAssembler.onNewMiningJob
      dsimp only
      split <;> rfl
    | setNewPrevHash p =>
      refine .inr (.inr ⟨p.jobID, rfl, rfl, ?_⟩)
      show (⟨(a.onSetNewPrevHash p).1.pending, (a.onSetNewPrevHash p).1.pendingOrder⟩ :
        Table UInt32 NewMiningJob) = _
      unfold Sv2JobAssembler.onSetNewPrevHash Table.keep
      cases a.pending.lookup p.jobID <;> rfl
    | _ => exact .inl ⟨rfl, rfl⟩

/-! ## Both tables -/

/-- **The tables of outstanding jobs stay well formed.**  After any inputs of
either loop, the list names the keys of the map, each once; they are at
most 64; the job just taken in is there with its content; and an entry
is only lost to a tip that does not name it, or to a new job when it is
the first inserted of 64. Over jobs and tips the session takes in every
job on its channel. -/
theorem jobTables_disciplined (opts : SessionOpts) (target : Hash) (m : ShareMetrics) :
    (∀ hist : List (Env × Event),
      Disciplined 64 (sessionTable opts target m) (sessionTakes opts target m) jobNamed hist) ∧
    (∀ (hist : List (Env × Event)) (env : Env) (j : NewMiningJob),
      (∀ e ∈ hist, (jobOf e).isSome ∨ (tipOf e).isSome) → j.channelID = opts.chanID →
      sessionTakes opts target m hist (env, .poolMsg (.newMiningJob j)) = some (j.jobID, j)) ∧
    ∀ hist : List Message, Disciplined 64 pendingTable pendingTakes pendingNamed hist := by
  refine ⟨(session_follows opts target m).disciplined (by decide), ?_,
    adapter_follows.disciplined (by decide)⟩
  intro hist env j hframes hown
  have hlive := live_of_jobs_and_tips opts target m hist hframes
  have hguard : foreignFrame opts (.newMiningJob j) = false := foreignFrame_own (hown ▸ rfl)
  simp [sessionTakes, jobTaken, hlive, hguard]

/-- A job after the tip that does not name the first one. -/
theorem sampleJob_taken :
    sampleJob.channelID = sampleOpts.chanID ∧
      sessionTakes sampleOpts Bytes.zero32 zeroMetrics
        [(calmEnv, .poolMsg (.newMiningJob sampleJob)),
          (calmEnv, .poolMsg (.setNewPrevHash { sampleTip with jobID := 2 }))]
        (calmEnv, .poolMsg (.newMiningJob sampleJob)) = some (1, sampleJob) :=
  ⟨rfl, (jobTables_disciplined sampleOpts Bytes.zero32 zeroMetrics).2.1 _ calmEnv sampleJob
    (by simp [jobOf, tipOf]) rfl⟩

end Otedama.Engine
