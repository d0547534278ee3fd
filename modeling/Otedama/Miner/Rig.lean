import Otedama.Framework.Machine
import Otedama.Miner.Worker

/-! # A worker and its threads

The step system of one worker: `SetWork` publishes, threads reload and
hash, and found shares queue up in the worker's channel. Everything a
thread does between two looks at shared state is one step: reloading the
work under the lock is one, and each hash of the inner loop is one.

Two ghost fields keep what the program forgets. An `Emitted` share
carries the work it was ground from, with the facts that tie them
together; and `hashed` records every header that was hashed. -/

namespace Otedama.Miner

open List

/-! ## Shares and records -/

/-- A share on its way, together with the published work it was ground from
and the header that was hashed. -/
structure Emitted (ω : Type) (view : ω → Work) where
  ref : ω
  header : Header
  share : Share
  jobID_eq : share.jobID = (view ref).jobID
  template_eq : header.template = (view ref).header.template

/-- One hash: by which thread, under which version of the work, and whether a
share was handed to the channel. -/
structure Hashed (ω : Type) where
  threadID : Nat
  ver : Nat
  ref : ω
  roll : UInt32
  header : Header
  sent : Bool
  deriving DecidableEq, Repr

section

variable {ω : Type} {view : ω → Work} (sha256 : List UInt8 → Bytes32)

/-- The share for the header a thread hashes next, if it meets the target. -/
def Thread.emit (cfg : WorkerConfig) (t : Thread ω) (ref : ω) : Option (Emitted ω view) :=
  match h : t.found sha256 cfg (view ref) with
  | none => none
  | some share =>
      some
        { ref := ref
          header := t.header (view ref)
          share := share
          jobID_eq := (Thread.found_eq_some sha256 h).1
          template_eq := rfl }

theorem Thread.emit_eq_some {cfg : WorkerConfig} {t : Thread ω} {ref : ω} {em : Emitted ω view}
    (h : t.emit sha256 cfg ref = some em) : em.ref = ref ∧ em.header = t.header (view ref) := by
  unfold Thread.emit at h
  split at h
  · cases h
  · obtain rfl := Option.some.inj h
    exact ⟨rfl, rfl⟩

/-! ## The step system -/

/-- A worker with its threads and its share channel. -/
structure Rig (ω : Type) (view : ω → Work) where
  cfg : WorkerConfig
  worker : Worker ω
  threads : List (Thread ω)
  shares : List (Emitted ω view)
  /-- Every hash so far, the latest first. -/
  hashed : List (Hashed ω)

/-- A worker that has just been started. -/
def Rig.start (view : ω → Work) (cfg : WorkerConfig) : Rig ω view where
  cfg := cfg
  worker := { deviceID := cfg.deviceID, work := none, workVer := 0 }
  threads := (List.range cfg.threads).map (Thread.init cfg)
  shares := []
  hashed := []

/-- The capacity of the share channel. -/
def Rig.sharesCap (rig : Rig ω view) : Nat := rig.cfg.threads * 4

/-- What can happen to a worker. -/
inductive RigMove (ω : Type) where
  /-- Somebody calls `SetWork`. -/
  | setWork (work : Option ω)
  /-- A thread at the end of its batch looks at the published work. -/
  | reload (threadID : Nat)
  /-- A thread hashes one header of its batch. -/
  | hash (threadID : Nat)
  /-- The oldest share is received from the channel. -/
  | takeShare
  deriving DecidableEq, Repr

/-- One hash of thread `threadID`, whose variables are `t`, on the work `ref`.
A share that the channel has no room for is dropped. -/
def Rig.hashOne (rig : Rig ω view) (threadID : Nat) (t : Thread ω) (ref : ω) : Rig ω view :=
  let found := (t.emit sha256 rig.cfg ref).filter fun _ => rig.shares.length < rig.sharesCap
  { rig with
    threads := rig.threads.set threadID (t.advance rig.cfg)
    shares := rig.shares ++ found.toList
    hashed :=
      { threadID := threadID, ver := t.localWorkVer, ref := ref, roll := t.ntimeRoll,
        header := t.header (view ref), sent := found.isSome } :: rig.hashed }

def Rig.next [DecidableEq ω] (rig : Rig ω view) : RigMove ω → Option (Rig ω view)
  | .setWork work => some { rig with worker := rig.worker.setWork work }
  -- The top of the outer loop of `grind`, reached only between batches.
  | .reload threadID =>
      match rig.threads[threadID]? with
      | none => none
      | some t =>
          if t.left = 0 then
            some { rig with
              threads := rig.threads.set threadID (t.reload rig.cfg threadID rig.worker) }
          else none
  -- An idle thread has no batch to work on.
  | .hash threadID =>
      match rig.threads[threadID]? with
      | none => none
      | some t =>
          match t.localWork with
          | none => none
          | some ref => if t.left = 0 then none else some (rig.hashOne sha256 threadID t ref)
  | .takeShare =>
      match rig.shares with
      | [] => none
      | _ :: shares => some { rig with shares := shares }

/-- The step system of one worker. -/
def rigSystem [DecidableEq ω] (view : ω → Work) : LTS (Rig ω view) (RigMove ω) where
  next := Rig.next sha256

/-! ## What a step does -/

/-- What a hash step does. -/
theorem Rig.next_hash [DecidableEq ω] {rig rig' : Rig ω view} {threadID : Nat}
    (h : rig.next sha256 (.hash threadID) = some rig') :
    ∃ t ref, rig.threads[threadID]? = some t ∧ t.localWork = some ref ∧ 0 < t.left ∧
      rig' = rig.hashOne sha256 threadID t ref := by
  simp only [Rig.next] at h
  split at h
  · cases h
  · next t ht =>
    split at h
    · cases h
    · next ref href =>
      split at h
      · cases h
      · next hleft => exact ⟨t, ref, ht, href, by omega, (Option.some.inj h).symm⟩

/-- What a reload step does. -/
theorem Rig.next_reload [DecidableEq ω] {rig rig' : Rig ω view} {threadID : Nat}
    (h : rig.next sha256 (.reload threadID) = some rig') :
    ∃ t, rig.threads[threadID]? = some t ∧ t.left = 0 ∧ rig' = { rig with
      threads := rig.threads.set threadID (t.reload rig.cfg threadID rig.worker) } := by
  simp only [Rig.next] at h
  split at h
  · cases h
  · next t ht =>
    split at h
    · next hleft => exact ⟨t, ht, hleft, (Option.some.inj h).symm⟩
    · cases h

/-- The work references that a worker, its threads and its channel hold. -/
def Rig.held (rig : Rig ω view) : List ω :=
  rig.worker.work.toList ++ rig.threads.filterMap Thread.localWork ++
    rig.shares.map Emitted.ref

theorem Rig.mem_held {rig : Rig ω view} {ref : ω} : ref ∈ rig.held ↔
    rig.worker.work = some ref ∨ (∃ t ∈ rig.threads, t.localWork = some ref) ∨
      ∃ em ∈ rig.shares, em.ref = ref := by
  simp [Rig.held]

/-- A worker holds only what it held before and what `SetWork` gives it. -/
theorem Rig.held_next [DecidableEq ω] {rig rig' : Rig ω view} {move : RigMove ω} {ref : ω}
    (h : rig.next sha256 move = some rig') (hheld : ref ∈ rig'.held) :
    ref ∈ rig.held ∨ move = .setWork (some ref) := by
  rw [Rig.mem_held] at hheld
  cases move with
  | setWork work =>
    -- Only the published work is new.
    obtain rfl := Option.some.inj h
    rcases hheld with hwork | hrest
    · exact .inr (by rw [← hwork]; rfl)
    · exact .inl (Rig.mem_held.mpr (.inr hrest))
  | reload i =>
    left
    rw [Rig.mem_held]
    obtain ⟨t, ht, -, rfl⟩ := Rig.next_reload sha256 h
    rcases hheld with hwork | ⟨t', ht', hlocal⟩ | hshare
    · exact .inl hwork
    · rcases mem_or_eq_of_mem_set ht' with hold | rfl
      · exact .inr (.inl ⟨t', hold, hlocal⟩)
      · -- A thread that reloads copies the published work.
        rw [(Thread.reload_spec ..).1] at hlocal
        exact .inl hlocal
    · exact .inr (.inr hshare)
  | hash i =>
    left
    rw [Rig.mem_held]
    obtain ⟨t, ref₀, ht, hlocal₀, -, rfl⟩ := Rig.next_hash sha256 h
    have hmem : t ∈ rig.threads := mem_of_getElem? ht
    rcases hheld with hwork | ⟨t', ht', hlocal⟩ | ⟨em, hem, href⟩
    · exact .inl hwork
    · rcases mem_or_eq_of_mem_set ht' with hold | rfl
      · exact .inr (.inl ⟨t', hold, hlocal⟩)
      · exact .inr (.inl ⟨t, hmem, hlocal⟩)
    · rcases mem_append.mp hem with hold | hnew
      · exact .inr (.inr ⟨em, hold, href⟩)
      · -- A new share refers to the work that its thread grinds.
        have hfound := (Option.filter_eq_some_iff.mp (Option.mem_toList.mp hnew)).1
        obtain ⟨hsame, -⟩ := Thread.emit_eq_some sha256 hfound
        exact .inr (.inl ⟨t, hmem, by rw [hlocal₀, ← href, hsame]⟩)
  | takeShare =>
    left
    rw [Rig.mem_held]
    simp only [Rig.next] at h
    split at h
    · cases h
    · next share shares hshares =>
      obtain rfl := Option.some.inj h
      rcases hheld with hwork | hthread | ⟨em, hem, href⟩
      · exact .inl hwork
      · exact .inr (.inl hthread)
      · exact .inr (.inr ⟨em, by rw [hshares]; exact mem_cons_of_mem _ hem, href⟩)

end

end Otedama.Miner
