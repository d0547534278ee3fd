import Otedama.Engine.ShareContentV1
import Otedama.Poolproto.PreAuth

/-! # What the stash loses

The stash keeps the last 16 messages. For a message that another one of
its kind follows this loses nothing, but the kinds share the stash: 16
jobs push out the only `mining.set_difficulty`. And a job is completed
with the extranonces that are current when it is replayed, so that it
changes when the `mining.set_extranonce` before it is lost.

The module compares the replay of the stash with the replay of all
messages, and says exactly when they agree (`flush_agrees_iff`). The
counter that makes extranonce2 roll is left out of the comparison. -/

namespace Otedama.Poolproto

open Miner Engine List Option

/-! ## The source -/

/-- The messages that set the state of the session. -/
inductive PoolUpdate where
  | setDifficulty (params : Json)
  | setExtranonce (params : Json)
  | notify (params : Json)

structure PoolSession where
  difficulty : ℚ
  v1 : V1State
  jobsCh : List Job

/-- The session when `Negotiate` flushes the stash: the pair is from the answer
to `mining.subscribe`, and nothing else has been set. -/
def PoolSession.start (ep : ExtranoncePair) : PoolSession where
  difficulty := 0
  v1 := { extranonce := some ep, en2Counter := 0 }
  jobsCh := []

section

variable (sha256 : List UInt8 → Bytes32)

/-- `dispatchPoolMsg` for these messages. -/
def dispatchUpdate (s : PoolSession) : PoolUpdate → PoolSession
  | .setDifficulty params =>
      match parseDifficulty params with
      | some d => { s with difficulty := d }
      | none => s
  | .setExtranonce params => { s with v1 := handleSetExtranonce s.v1 params }
  | .notify params =>
      let r := handleNotify sha256 s.v1 params
      { s with
        v1 := r.1
        jobsCh := match r.2 with
          | some job => sendJob s.jobsCh job
          | none => s.jobsCh }

/-- The loop of `flushPreAuth`. -/
def replay (s : PoolSession) (msgs : List PoolUpdate) : PoolSession :=
  msgs.foldl (dispatchUpdate sha256) s

/-- Messages are stashed one after the other, and then the stash is flushed. -/
def flushStashed (s : PoolSession) (msgs : List PoolUpdate) : PoolSession :=
  replay sha256 s (msgs.foldl stashPreAuth [])

end

/-! ## What a message sets -/

namespace PoolUpdate

def difficulty : PoolUpdate → Option ℚ
  | .setDifficulty params => parseDifficulty params
  | _ => none

def extranonce : PoolUpdate → Option ExtranoncePair
  | .setExtranonce params => parseSetExtranonce params
  | _ => none

def job : PoolUpdate → Option Job
  | .notify params => (parseNotify params).toOption
  | _ => none

/-- The message is accepted by its handler. -/
def WellFormed (m : PoolUpdate) : Prop :=
  m.difficulty.isSome ∨ m.extranonce.isSome ∨ m.job.isSome

end PoolUpdate

/-- What a completed job depends on: extranonce1, and the size of extranonce2. -/
def ExtranoncePair.bytes (ep : ExtranoncePair) : Option (List UInt8 × Nat) :=
  if ep.en1 = [] ∨ ep.size ≤ 0 ∨ 64 < ep.size then none
  else (Hex.decode ep.en1).map fun en1 => (en1, ep.size.toNat)

section

variable (sha256 : List UInt8 → Bytes32)

/-- A job with its coinbase put together. -/
def Job.withExtranonces (j : Job) (en1 en2 : List UInt8) : Job :=
  let coinbase := j.coinb1 ++ en1 ++ en2 ++ j.coinb2
  { j with
    merkleRoot := j.merkleBranch.foldl
      (fun root branch => sha256d sha256 (root.toList ++ branch)) (sha256d sha256 coinbase)
    extraNonce := en2
    coinbaseTx := coinbase }

/-- A job completed at a value of the counter, if extranonces are known. -/
def Job.completed (j : Job) (pair : Option (List UInt8 × Nat)) (n : UInt64) : Job :=
  match pair with
  | none => j
  | some (en1, size) => j.withExtranonces sha256 en1 (extranonce2 size n)

/-- The same job, completed with the same extranonces but for the counter. -/
def SameButCounter (a b : Job) : Prop :=
  ∃ j pair n n', a = Job.completed sha256 j pair n ∧ b = Job.completed sha256 j pair n'

/-- Two sessions have the same difficulty, extranonces and newest job. -/
structure Agree (a b : PoolSession) : Prop where
  difficulty : a.difficulty = b.difficulty
  extranonce : a.v1.extranonce = b.v1.extranonce
  newest : Option.Rel (SameButCounter sha256) a.jobsCh.getLast? b.jobsCh.getLast?

end

/-! ## Completed jobs -/

section

variable {sha256 : List UInt8 → Bytes32}

/-- The extranonces are read off a completed job. -/
def Job.pairOf (j : Job) : Option (List UInt8 × Nat) :=
  if j.coinbaseTx = [] then none
  else some ((j.coinbaseTx.drop j.coinb1.length).take
    (j.coinbaseTx.length - j.coinb1.length - j.extraNonce.length - j.coinb2.length),
    j.extraNonce.length)

theorem pairOf_withExtranonces {j : Job} {en1 en2 : List UInt8} (h : j.coinb1 ≠ []) :
    (j.withExtranonces sha256 en1 en2).pairOf = some (en1, en2.length) := by
  have hne : j.coinb1 ++ en1 ++ en2 ++ j.coinb2 ≠ [] := by
    simp [h]
  have hlen : (j.coinb1 ++ en1 ++ en2 ++ j.coinb2).length - j.coinb1.length - en2.length
      - j.coinb2.length = en1.length := by
    simp only [length_append]
    omega
  have htake : ((j.coinb1 ++ en1 ++ en2 ++ j.coinb2).drop j.coinb1.length).take en1.length
      = en1 := by
    rw [append_assoc, append_assoc, drop_left, take_left]
  simp only [Job.pairOf, Job.withExtranonces, if_neg hne, hlen, htake]

/-- A job as `parseNotify` makes it. -/
structure Job.Fresh (j : Job) : Prop where
  coinb1 : j.coinb1 ≠ []
  coinb2 : j.coinb2 ≠ []
  coinbaseTx : j.coinbaseTx = []

theorem decodeCoinb_ne_nil {text : GoString} {err : NotifyError} {b : List UInt8}
    (h : decodeCoinb text err = .ok b) : b ≠ [] := by
  unfold decodeCoinb at h
  split at h
  · cases h
  · split at h
    · cases h
    · rename_i hlen
      cases h
      rintro rfl
      exact hlen rfl

theorem fresh_of_decodeNotifyJob {ns : NotifyStrings} {j : Job}
    (h : decodeNotifyJob ns = .ok j) : j.Fresh := by
  unfold decodeNotifyJob at h
  cases h₁ : decodeCoinb ns.coinb1Hex .coinb1 with
  | error e =>
    rw [h₁] at h
    cases h
  | ok coinb1 =>
    cases h₂ : decodeCoinb ns.coinb2Hex .coinb2 with
    | error e =>
      rw [h₁, h₂] at h
      cases h
    | ok coinb2 =>
      rw [h₁, h₂] at h
      simp only [bind, Except.bind, pure, Except.pure] at h
      repeat' split at h
      all_goals cases h
      exact ⟨decodeCoinb_ne_nil h₁, decodeCoinb_ne_nil h₂, rfl⟩

theorem fresh_of_parseNotify {params : Json} {j : Job} (h : parseNotify params = .ok j) :
    j.Fresh := by
  unfold parseNotify at h
  split at h
  · cases h
  · split at h
    · cases h
    · split at h
      · cases h
      · exact fresh_of_decodeNotifyJob h

theorem PoolUpdate.fresh_of_job {m : PoolUpdate} {j : Job} (h : m.job = some j) : j.Fresh := by
  cases m with
  | setDifficulty params => cases h
  | setExtranonce params => cases h
  | notify params =>
    apply fresh_of_parseNotify
    cases hparse : parseNotify params with
    | error e =>
      rw [PoolUpdate.job, hparse] at h
      cases h
    | ok j' =>
      rw [PoolUpdate.job, hparse] at h
      exact congrArg Except.ok (some.inj h)

theorem completeV1Job_eq {j : Job} (hj : j.Fresh) (s : V1State) : (completeV1Job sha256 s j).2
      = j.completed sha256 (s.extranonce.bind ExtranoncePair.bytes) (s.en2Counter + 1) := by
  cases hs : s.extranonce with
  | none => simp only [completeV1Job, completeV1JobWith, hs, bind_none, Job.completed]
  | some ep =>
    have hparts : ¬ j.coinb1.length = 0 ∧ ¬ j.coinb2.length = 0 :=
      ⟨fun h => hj.coinb1 (length_eq_zero_iff.mp h),
        fun h => hj.coinb2 (length_eq_zero_iff.mp h)⟩
    by_cases hguard : ep.en1 = [] ∨ ep.size ≤ 0 ∨ 64 < ep.size
    · simp only [completeV1Job, completeV1JobWith, hs, hparts, false_or, if_pos hguard,
        bind_some, ExtranoncePair.bytes, Job.completed]
    · cases hhex : Hex.decode ep.en1 <;>
        simp only [completeV1Job, completeV1JobWith, hs, hparts, false_or, if_neg hguard, hhex,
          bind_some, ExtranoncePair.bytes, map_none, map_some, Job.completed,
          Job.withExtranonces]

theorem pairOf_completed {j : Job} (hj : j.Fresh) (pair : Option (List UInt8 × Nat))
    (n : UInt64) : (j.completed sha256 pair n).pairOf = pair := by
  cases pair with
  | none => exact if_pos hj.coinbaseTx
  | some pair =>
    show (j.withExtranonces sha256 pair.1 (extranonce2 pair.2 n)).pairOf = _
    rw [pairOf_withExtranonces hj.coinb1, length_extranonce2]

theorem completed_coinb1 (j : Job) (pair : Option (List UInt8 × Nat)) (n : UInt64) :
    (j.completed sha256 pair n).coinb1 = j.coinb1 := by
  cases pair <;> rfl

theorem SameButCounter.pairOf_eq {a b : Job} (h : SameButCounter sha256 a b)
    (ha : a.coinb1 ≠ []) : a.pairOf = b.pairOf := by
  obtain ⟨j, pair, n, n', rfl, rfl⟩ := h
  rw [completed_coinb1] at ha
  cases pair with
  | none => rfl
  | some pair =>
    show (j.withExtranonces sha256 _ _).pairOf = (j.withExtranonces sha256 _ _).pairOf
    rw [pairOf_withExtranonces ha, pairOf_withExtranonces ha, length_extranonce2,
      length_extranonce2]

/-- A job is the same but for the counter exactly if it is completed with the
same extranonces. -/
theorem sameButCounter_completed_iff {j : Job} (hj : j.Fresh)
    {pair pair' : Option (List UInt8 × Nat)} {n n' : UInt64} :
    SameButCounter sha256 (j.completed sha256 pair n) (j.completed sha256 pair' n') ↔
      pair = pair' := by
  constructor
  · intro h
    have heq := h.pairOf_eq (by rw [completed_coinb1]; exact hj.coinb1)
    rwa [pairOf_completed hj, pairOf_completed hj] at heq
  · rintro rfl
    exact ⟨j, pair, n, n', rfl, rfl⟩

/-! ## Replaying -/

theorem getLast_sendJob (jobsCh : List Job) (job : Job) :
    (sendJob jobsCh job).getLast? = some job := by
  unfold sendJob
  dsimp only
  generalize (if job.cleanJobs = true then [] else jobsCh) = pending
  split <;> exact getLast?_concat

section

variable (s : PoolSession)

theorem replay_append (xs ys : List PoolUpdate) :
    replay sha256 s (xs ++ ys) = replay sha256 (replay sha256 s xs) ys := foldl_append

theorem dispatchUpdate_difficulty (m : PoolUpdate) :
    (dispatchUpdate sha256 s m).difficulty = m.difficulty.getD s.difficulty := by
  cases m with
  | setDifficulty params =>
    cases hparse : parseDifficulty params <;>
      simp only [dispatchUpdate, PoolUpdate.difficulty, hparse, getD_none, getD_some]
  | setExtranonce params => rfl
  | notify params => rfl

theorem dispatchUpdate_extranonce (m : PoolUpdate) :
    (dispatchUpdate sha256 s m).v1.extranonce = m.extranonce.or s.v1.extranonce := by
  cases m with
  | setDifficulty params =>
    cases hparse : parseDifficulty params <;>
      simp only [dispatchUpdate, PoolUpdate.extranonce, hparse, none_or]
  | setExtranonce params =>
    cases hparse : parseSetExtranonce params <;>
      simp only [dispatchUpdate, handleSetExtranonce, PoolUpdate.extranonce, hparse,
        none_or, some_or]
  | notify params =>
    show (handleNotify sha256 s.v1 params).1.extranonce = s.v1.extranonce
    unfold handleNotify
    split
    · rfl
    · exact completeV1Job_extranonce sha256 s.v1 _

theorem dispatchUpdate_jobsCh (m : PoolUpdate) :
    (dispatchUpdate sha256 s m).jobsCh = match m.job with
      | some j => sendJob s.jobsCh (completeV1Job sha256 s.v1 j).2
      | none => s.jobsCh := by
  cases m with
  | setDifficulty params =>
    cases hparse : parseDifficulty params <;>
      simp only [dispatchUpdate, PoolUpdate.job, hparse]
  | setExtranonce params => rfl
  | notify params =>
    cases hparse : parseNotify params <;>
      simp only [dispatchUpdate, handleNotify, PoolUpdate.job, hparse, Except.toOption]

/-- The last `mining.set_difficulty` counts. -/
theorem replay_difficulty (msgs : List PoolUpdate) : (replay sha256 s msgs).difficulty
      = (msgs.filterMap PoolUpdate.difficulty).getLast?.getD s.difficulty := by
  induction msgs using reverseRecOn with
  | nil => rfl
  | append_singleton msgs m ih =>
    rw [replay_append, filterMap_append]
    show (dispatchUpdate sha256 (replay sha256 s msgs) m).difficulty = _
    rw [dispatchUpdate_difficulty, ih]
    cases hm : m.difficulty <;> simp [hm]

/-- The last `mining.set_extranonce` counts. -/
theorem replay_extranonce (msgs : List PoolUpdate) : (replay sha256 s msgs).v1.extranonce
      = (msgs.filterMap PoolUpdate.extranonce).getLast?.or s.v1.extranonce := by
  induction msgs using reverseRecOn with
  | nil => rfl
  | append_singleton msgs m ih =>
    rw [replay_append, filterMap_append]
    show (dispatchUpdate sha256 (replay sha256 s msgs) m).v1.extranonce = _
    rw [dispatchUpdate_extranonce, ih]
    cases hm : m.extranonce <;> simp [hm]

theorem replay_jobsCh_of_none {msgs : List PoolUpdate} (h : ∀ m ∈ msgs, m.job = none) :
    (replay sha256 s msgs).jobsCh = s.jobsCh := by
  induction msgs using reverseRecOn with
  | nil => rfl
  | append_singleton msgs m ih =>
    rw [replay_append]
    show (dispatchUpdate sha256 (replay sha256 s msgs) m).jobsCh = _
    rw [dispatchUpdate_jobsCh, h m (by simp)]
    exact ih fun x hx => h x (by simp [hx])

end

/-- `m` is the last message with a job. -/
structure LastJob (msgs pre : List PoolUpdate) (m : PoolUpdate) (j : Job) : Prop where
  job : m.job = some j
  split : ∃ post, msgs = pre ++ m :: post ∧ ∀ x ∈ post, x.job = none

/-- The last job is completed with what was set before it. -/
theorem LastJob.newest {msgs pre : List PoolUpdate} {m : PoolUpdate} {j : Job}
    (h : LastJob msgs pre m j) (s : PoolSession) :
    (replay sha256 s msgs).jobsCh.getLast? = some (j.completed sha256
      ((replay sha256 s pre).v1.extranonce.bind ExtranoncePair.bytes)
      ((replay sha256 s pre).v1.en2Counter + 1)) := by
  obtain ⟨post, rfl, hpost⟩ := h.split
  rw [replay_append]
  show (replay sha256 (dispatchUpdate sha256 (replay sha256 s pre) m) post).jobsCh.getLast? = _
  rw [replay_jobsCh_of_none _ hpost, dispatchUpdate_jobsCh, h.job]
  dsimp only
  rw [getLast_sendJob, completeV1Job_eq (PoolUpdate.fresh_of_job h.job)]

theorem exists_lastJob {msgs : List PoolUpdate} (h : ∃ m ∈ msgs, m.job ≠ none) :
    ∃ pre m j, LastJob msgs pre m j := by
  induction msgs using reverseRecOn with
  | nil =>
    obtain ⟨m, hm, -⟩ := h
    cases hm
  | append_singleton msgs x ih =>
    cases hx : x.job with
    | some j => exact ⟨msgs, x, j, hx, [], rfl, fun _ hm => absurd hm not_mem_nil⟩
    | none =>
      -- Then the last job is an earlier one.
      obtain ⟨m, hm, hjob⟩ := h
      have hm' : m ∈ msgs := by
        obtain hm | hm := mem_append.mp hm
        · exact hm
        · rw [mem_singleton.mp hm] at hjob
          exact absurd hx hjob
      obtain ⟨pre, m', j, hlast⟩ := ih ⟨m, hm', hjob⟩
      obtain ⟨post, rfl, hpost⟩ := hlast.split
      refine ⟨pre, m', j, hlast.job, post ++ [x], by simp, ?_⟩
      intro y hy
      obtain hy | hy := mem_append.mp hy
      · exact hpost y hy
      · rw [mem_singleton.mp hy]
        exact hx

/-- The stash is what came last. -/
theorem foldl_stashPreAuth {α : Type} (msgs : List α) :
    msgs.foldl stashPreAuth [] = msgs.drop (msgs.length - preAuthCap) := by
  induction msgs using reverseRecOn with
  | nil => rfl
  | append_singleton msgs m ih =>
    rw [foldl_append, ih]
    show stashPreAuth (msgs.drop (msgs.length - preAuthCap)) m = _
    have hlen : (msgs.drop (msgs.length - preAuthCap)).length
        = msgs.length - (msgs.length - preAuthCap) := length_drop
    unfold stashPreAuth
    by_cases hfull : preAuthCap ≤ msgs.length
    · -- The oldest message goes, and the window moves on by one.
      rw [if_pos (by omega), drop_drop, length_append, length_singleton,
        drop_append_of_le_length (by unfold preAuthCap at *; omega)]
      congr 2
      omega
    · rw [if_neg (by omega), length_append, length_singleton, drop_append_of_le_length (by omega)]
      congr 2
      omega

/-! ## When nothing is lost -/

/-- The messages that the stash has lost, and those it keeps. -/
def lost (msgs : List PoolUpdate) : List PoolUpdate := msgs.take (msgs.length - preAuthCap)

def kept (msgs : List PoolUpdate) : List PoolUpdate := msgs.drop (msgs.length - preAuthCap)

/-- The extranonces after some messages. -/
def pairAfter (ep : ExtranoncePair) (msgs : List PoolUpdate) : ExtranoncePair :=
  (msgs.filterMap PoolUpdate.extranonce).getLast?.getD ep

/-- The stash loses nothing that counts. -/
structure NothingLost (ep : ExtranoncePair) (msgs : List PoolUpdate) : Prop where
  /-- A difficulty that is lost is followed by one that is kept. -/
  difficulty : (∃ m ∈ lost msgs, m.difficulty ≠ none) → ∃ m ∈ kept msgs, m.difficulty ≠ none
  /-- Extranonces that are lost are followed by others that are kept, or they
      were those of the session. -/
  extranonce : (∃ m ∈ kept msgs, m.extranonce ≠ none) ∨ pairAfter ep (lost msgs) = ep
  /-- A job that is lost is followed by one that is kept. -/
  job : (∃ m ∈ lost msgs, m.job ≠ none) → ∃ m ∈ kept msgs, m.job ≠ none
  /-- The newest job comes after extranonces that are kept, or those that are
      lost complete it in the same way. -/
  completed : ∀ pre m j, LastJob (kept msgs) pre m j →
    (∃ x ∈ pre, x.extranonce ≠ none) ∨ (pairAfter ep (lost msgs)).bytes = ep.bytes

theorem filterMap_getLast?_eq_none {α β : Type} {f : α → Option β} {xs : List α} :
    (xs.filterMap f).getLast? = none ↔ ∀ x ∈ xs, f x = none := by
  rw [getLast?_eq_none_iff, filterMap_eq_nil_iff]

theorem exists_ne_none_iff {α β : Type} {f : α → Option β} {xs : List α} :
    (∃ x ∈ xs, f x ≠ none) ↔ ∃ y, (xs.filterMap f).getLast? = some y := by
  rw [← ne_none_iff_exists', ne_eq, filterMap_getLast?_eq_none]
  simp only [not_forall, exists_prop, ne_eq]

theorem parseDifficulty_pos {params : Json} {d : ℚ} (h : parseDifficulty params = some d) :
    0 < d := by
  unfold parseDifficulty at h
  split at h
  · split at h
    · cases h
    · rename_i hpos
      cases h
      exact not_le.mp hpos
  · cases h

theorem difficulty_pos_of_last {msgs : List PoolUpdate} {d : ℚ}
    (h : (msgs.filterMap PoolUpdate.difficulty).getLast? = some d) : 0 < d := by
  obtain ⟨m, -, hm⟩ := mem_filterMap.mp (mem_of_getLast? h)
  cases m with
  | setDifficulty params => exact parseDifficulty_pos hm
  | setExtranonce params => cases hm
  | notify params => cases hm

theorem replay_start_extranonce (ep : ExtranoncePair) (msgs : List PoolUpdate) :
    (replay sha256 (.start ep) msgs).v1.extranonce = some (pairAfter ep msgs) := by
  rw [replay_extranonce]
  show Option.or _ (some ep) = some (Option.getD _ ep)
  cases (msgs.filterMap PoolUpdate.extranonce).getLast? <;> rfl

/-- Both replays end with the messages that are kept; the one of all messages
starts where the lost ones have led. -/
theorem replay_eq_lost_kept (s : PoolSession) (msgs : List PoolUpdate) :
    replay sha256 s msgs = replay sha256 (replay sha256 s (lost msgs)) (kept msgs) := by
  rw [← replay_append, lost, kept, take_append_drop]

theorem flushStashed_eq (s : PoolSession) (msgs : List PoolUpdate) :
    flushStashed sha256 s msgs = replay sha256 s (kept msgs) := by
  rw [flushStashed, foldl_stashPreAuth]
  rfl

theorem difficulty_agrees_iff (ep : ExtranoncePair) (msgs : List PoolUpdate) :
    (flushStashed sha256 (.start ep) msgs).difficulty
        = (replay sha256 (.start ep) msgs).difficulty ↔
      ((∃ m ∈ lost msgs, m.difficulty ≠ none) → ∃ m ∈ kept msgs, m.difficulty ≠ none) := by
  rw [replay_eq_lost_kept (.start ep) msgs, flushStashed_eq, replay_difficulty, replay_difficulty,
    replay_difficulty, exists_ne_none_iff, exists_ne_none_iff]
  cases hkept : ((kept msgs).filterMap PoolUpdate.difficulty).getLast? with
  | some d => simp
  | none =>
    cases hlost : ((lost msgs).filterMap PoolUpdate.difficulty).getLast? with
    | none => simp
    | some d =>
      -- A session starts with difficulty zero, which no pool can set.
      have hpos := difficulty_pos_of_last hlost
      simp only [getD_none, getD_some, PoolSession.start]
      constructor
      · intro heq
        exact absurd heq hpos.ne
      · intro h
        obtain ⟨y, hy⟩ := h ⟨d, rfl⟩
        cases hy

section

variable {a b : PoolSession} {p q : ExtranoncePair} (ha : a.v1.extranonce = some p)
  (hb : b.v1.extranonce = some q) (msgs : List PoolUpdate)

include ha hb

theorem extranonce_agrees_iff :
    (replay sha256 a msgs).v1.extranonce = (replay sha256 b msgs).v1.extranonce ↔
      (∃ m ∈ msgs, m.extranonce ≠ none) ∨ q = p := by
  rw [replay_extranonce, replay_extranonce, ha, hb, exists_ne_none_iff]
  cases (msgs.filterMap PoolUpdate.extranonce).getLast? with
  | some ep => simp
  | none => simp [eq_comm]

theorem bytes_agree_iff : (replay sha256 a msgs).v1.extranonce.bind ExtranoncePair.bytes
        = (replay sha256 b msgs).v1.extranonce.bind ExtranoncePair.bytes ↔
      (∃ m ∈ msgs, m.extranonce ≠ none) ∨ q.bytes = p.bytes := by
  rw [replay_extranonce, replay_extranonce, ha, hb, exists_ne_none_iff]
  cases (msgs.filterMap PoolUpdate.extranonce).getLast? with
  | some ep => simp
  | none => simp [eq_comm]

end

/-- The newest jobs agree. -/
theorem newest_agrees_iff (ep : ExtranoncePair) (msgs : List PoolUpdate) :
    Option.Rel (SameButCounter sha256) (flushStashed sha256 (.start ep) msgs).jobsCh.getLast?
        (replay sha256 (.start ep) msgs).jobsCh.getLast? ↔
      ((∃ m ∈ lost msgs, m.job ≠ none) → ∃ m ∈ kept msgs, m.job ≠ none) ∧
        ∀ pre m j, LastJob (kept msgs) pre m j →
          (∃ x ∈ pre, x.extranonce ≠ none) ∨ (pairAfter ep (lost msgs)).bytes = ep.bytes := by
  rw [replay_eq_lost_kept (.start ep) msgs, flushStashed_eq]
  by_cases hkept : ∃ m ∈ kept msgs, m.job ≠ none
  · -- Both replays end with the same job; only what precedes it may differ.
    obtain ⟨pre, m, j, hlast⟩ := exists_lastJob hkept
    have hiff : ∀ pre m j, LastJob (kept msgs) pre m j →
        (Option.Rel (SameButCounter sha256)
          (replay sha256 (.start ep) (kept msgs)).jobsCh.getLast?
          (replay sha256 (replay sha256 (.start ep) (lost msgs)) (kept msgs)).jobsCh.getLast? ↔
        (∃ x ∈ pre, x.extranonce ≠ none) ∨ (pairAfter ep (lost msgs)).bytes = ep.bytes) := by
      intro pre m j hlast
      rw [hlast.newest, hlast.newest, rel_some_some,
        sameButCounter_completed_iff (PoolUpdate.fresh_of_job hlast.job)]
      exact bytes_agree_iff rfl (replay_start_extranonce ep (lost msgs)) pre
    constructor
    · intro h
      exact ⟨fun _ => hkept, fun pre m j hlast => (hiff pre m j hlast).mp h⟩
    · intro h
      exact (hiff pre m j hlast).mpr (h.2 pre m j hlast)
  · -- Without a job among the kept messages the queue stays empty, so that a
    -- lost one shows.
    have hnone : ∀ m ∈ kept msgs, m.job = none := by
      intro m hm
      by_contra hne
      exact hkept ⟨m, hm, hne⟩
    rw [replay_jobsCh_of_none _ hnone, replay_jobsCh_of_none _ hnone]
    constructor
    · intro h
      refine ⟨?_, ?_⟩
      · intro hlost
        obtain ⟨pre, m, j, hlast⟩ := exists_lastJob hlost
        rw [hlast.newest] at h
        cases h
      · intro pre m j hlast
        obtain ⟨post, heq, -⟩ := hlast.split
        exact absurd ⟨m, by rw [heq]; simp, by rw [hlast.job]; simp⟩ hkept
    · intro h
      have hlost : ∀ m ∈ lost msgs, m.job = none := by
        intro m hm
        by_contra hne
        exact hkept (h.1 ⟨m, hm, hne⟩)
      rw [replay_jobsCh_of_none _ hlost]
      exact .none

/-- **What the stash loses.**  For every sequence of messages, well formed or
not, flushing the stash leads to the same difficulty, extranonces and
newest job as replaying all messages exactly when the lost messages do not
count. -/
theorem flush_agrees_iff (sha256 : List UInt8 → Bytes32) (ep : ExtranoncePair)
    (msgs : List PoolUpdate) :
    Agree sha256 (flushStashed sha256 (.start ep) msgs) (replay sha256 (.start ep) msgs) ↔
      NothingLost ep msgs := by
  have hextranonce : (flushStashed sha256 (.start ep) msgs).v1.extranonce
      = (replay sha256 (.start ep) msgs).v1.extranonce ↔
      (∃ m ∈ kept msgs, m.extranonce ≠ none) ∨ pairAfter ep (lost msgs) = ep := by
    rw [replay_eq_lost_kept (.start ep) msgs, flushStashed_eq]
    exact extranonce_agrees_iff rfl (replay_start_extranonce ep (lost msgs)) (kept msgs)
  constructor
  · intro h
    obtain ⟨hjob, hcompleted⟩ := (newest_agrees_iff ep msgs).mp h.newest
    exact ⟨(difficulty_agrees_iff ep msgs).mp h.difficulty, hextranonce.mp h.extranonce, hjob,
      hcompleted⟩
  · intro h
    exact ⟨(difficulty_agrees_iff ep msgs).mpr h.difficulty, hextranonce.mpr h.extranonce,
      (newest_agrees_iff ep msgs).mpr ⟨h.job, h.completed⟩⟩

/-- A difficulty, and then 16 jobs. -/
def crowdedOut : List PoolUpdate :=
  .setDifficulty (.arr [.num 2 true]) ::
    List.replicate 16 (.notify (sampleTemplate.notify [0x61] true))

/-- All messages are well formed, and the session is left with difficulty zero. -/
theorem crowdedOut_loses_difficulty :
    (∀ m ∈ crowdedOut, m.WellFormed) ∧
    (flushStashed (fun _ => Bytes.zero32) (.start ⟨[0x30, 0x38], 4⟩) crowdedOut).difficulty = 0 ∧
    (replay (fun _ => Bytes.zero32) (.start ⟨[0x30, 0x38], 4⟩) crowdedOut).difficulty = 2 := by
  have hdiff : (PoolUpdate.setDifficulty (.arr [.num 2 true])).difficulty = some 2 := by
    simp [PoolUpdate.difficulty, parseDifficulty, unmarshalFloats, unmarshalFloat]
  have hjob : (PoolUpdate.notify (sampleTemplate.notify [0x61] true)).job
      = some (sampleTemplate.parsed [0x61] true) := by
    rw [PoolUpdate.job, parseNotify_notify]
    rfl
  refine ⟨?_, ?_, ?_⟩
  · intro m hm
    obtain rfl | hm := List.mem_cons.mp hm
    · exact .inl (by rw [hdiff]; rfl)
    · rw [List.eq_of_mem_replicate hm]
      exact .inr (.inr (by rw [hjob]; rfl))
  · rw [flushStashed_eq, replay_difficulty]
    rfl
  · rw [replay_difficulty, crowdedOut, List.filterMap_cons, hdiff]
    rfl

end

end Otedama.Poolproto
