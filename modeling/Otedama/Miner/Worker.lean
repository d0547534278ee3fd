import Otedama.Miner.Header

/-! # Miner workers

A worker drives one device. `SetWork` publishes a job and bumps a
version number; each of the worker's threads copies the published job at
the start of a batch, hashes the batch one nonce at a time and hands
found shares to the worker's channel.

In the source `work` is a pointer. Here it is a value of a type `ω`
with a dereferencing function `view : ω → Work`: a session by itself
uses `Work` and `id`, and the model of the whole engine uses references
that remember which session published the work. -/

namespace Otedama.Miner

/-! ## Work, shares and configuration -/

/-- The current mining job. `header` is a template whose nonce is
overwritten, `nBits` the compact network target and `target` the share
target; `extraNonce` is the Stratum V1 extranonce2, empty for V2. -/
structure Work where
  jobID : UInt32
  channelID : UInt32
  header : Header
  nBits : UInt32
  target : Hash
  extraNonce : List UInt8
  deriving DecidableEq, Repr

/-- A found solution. -/
structure Share where
  channelID : UInt32
  jobID : UInt32
  nonce : UInt32
  nTime : UInt32
  version : UInt32
  hash : Hash
  target : Hash
  deviceID : String
  extraNonce : List UInt8
  deriving DecidableEq, Repr

/-- `WorkerConfig` after `NewWorker` has filled in its defaults: `threads`
goroutines, thread `i` starting at `nonceOffset + i` and advancing by
`nonceStep`. -/
structure WorkerConfig where
  threads : Nat
  nonceStep : UInt32
  nonceOffset : UInt32
  deviceID : String
  deriving DecidableEq, Repr

/-- `NewWorker`: no threads (the source also allows a negative number) means
all CPUs, and a zero step means one step per thread, so that the threads
interleave. -/
def newWorker (numCPU : Nat) (cfg : WorkerConfig) : WorkerConfig :=
  let threads := if cfg.threads = 0 then numCPU else cfg.threads
  let nonceStep := if cfg.nonceStep = 0 then UInt32.ofNat threads else cfg.nonceStep
  { cfg with threads := threads, nonceStep := nonceStep }

/-! ## Publishing work -/

/-- The part of a worker that `SetWork` writes. `none` means idle. -/
structure Worker (ω : Type) where
  deviceID : String
  work : Option ω
  workVer : Nat
  deriving DecidableEq, Repr

/-- Replace the current job. -/
def Worker.setWork {ω : Type} (w : Worker ω) (work : Option ω) : Worker ω :=
  { w with work := work, workVer := w.workVer + 1 }

@[simp] theorem Worker.setWork_workVer {ω : Type} (w : Worker ω) (work : Option ω) :
    (w.setWork work).workVer = w.workVer + 1 := rfl

/-! ## Grinding -/

/-- The local variables of `grind`; `left` is what remains of the inner
batch loop. -/
structure Thread (ω : Type) where
  localWork : Option ω
  localWorkVer : Nat
  nonce : UInt32
  ntimeRoll : UInt32
  left : Nat
  deriving DecidableEq, Repr

/-- Nonces hashed between two looks at the published work. -/
def batchSize : Nat := 1024

/-- The nonce a thread starts each new job at. -/
def WorkerConfig.startNonce (cfg : WorkerConfig) (threadID : Nat) : UInt32 :=
  cfg.nonceOffset + UInt32.ofNat threadID

/-- A thread before its first look at the published work. -/
def Thread.init {ω : Type} (cfg : WorkerConfig) (threadID : Nat) : Thread ω :=
  { localWork := none, localWorkVer := 0, nonce := cfg.startNonce threadID,
    ntimeRoll := 0, left := 0 }

/-- Advance a thread to its next nonce; the timestamp rolls when the nonce
space wraps. -/
def Thread.advance {ω : Type} (cfg : WorkerConfig) (t : Thread ω) : Thread ω :=
  let nonce := t.nonce + cfg.nonceStep
  { t with
    nonce := nonce
    ntimeRoll := if nonce < t.nonce then t.ntimeRoll + 1 else t.ntimeRoll
    left := t.left - 1 }

section Grind

variable {ω : Type}

section

variable (cfg : WorkerConfig) (t : Thread ω)

@[simp] theorem Thread.advance_nonce :
    (t.advance cfg).nonce = t.nonce + cfg.nonceStep := rfl

@[simp] theorem Thread.advance_ntimeRoll :
    (t.advance cfg).ntimeRoll =
      if t.nonce + cfg.nonceStep < t.nonce then t.ntimeRoll + 1 else t.ntimeRoll := rfl

@[simp] theorem Thread.advance_left :
    (t.advance cfg).left = t.left - 1 := rfl

end

/-- The top of the outer loop: reload the work if it changed, and start a
batch unless the worker is idle. -/
def Thread.reload [DecidableEq ω] (cfg : WorkerConfig) (threadID : Nat) (w : Worker ω)
    (t : Thread ω) : Thread ω :=
  let t' :=
    -- Republishing the same pointer counts as a change: the version moved.
    if w.work ≠ t.localWork ∨ w.workVer ≠ t.localWorkVer then
      { t with
        localWork := w.work
        localWorkVer := w.workVer
        nonce := cfg.startNonce threadID
        ntimeRoll := 0 }
    else t
  -- Without work the source sleeps and looks again.
  { t' with left := if t'.localWork = none then 0 else batchSize }

/-- After a reload a thread holds the published work; it starts over unless
nothing has changed. -/
theorem Thread.reload_spec [DecidableEq ω] (cfg : WorkerConfig) (threadID : Nat) (w : Worker ω)
    (t : Thread ω) : (t.reload cfg threadID w).localWork = w.work ∧
      (t.reload cfg threadID w).localWorkVer = w.workVer ∧
      ((w.work = t.localWork ∧ w.workVer = t.localWorkVer ∧
          (t.reload cfg threadID w).nonce = t.nonce ∧
          (t.reload cfg threadID w).ntimeRoll = t.ntimeRoll) ∨
        ((w.work ≠ t.localWork ∨ w.workVer ≠ t.localWorkVer) ∧
          (t.reload cfg threadID w).nonce = cfg.startNonce threadID ∧
          (t.reload cfg threadID w).ntimeRoll = 0)) := by
  by_cases hchanged : w.work ≠ t.localWork ∨ w.workVer ≠ t.localWorkVer
  · unfold Thread.reload
    rw [if_pos hchanged]
    exact ⟨rfl, rfl, .inr ⟨hchanged, rfl, rfl⟩⟩
  · unfold Thread.reload
    rw [if_neg hchanged]
    obtain ⟨hwork, hver⟩ : w.work = t.localWork ∧ w.workVer = t.localWorkVer := by
      simpa using hchanged
    exact ⟨hwork.symm, hver.symm, .inl ⟨hwork, hver, rfl, rfl⟩⟩

/-- The header a thread hashes next, given its work. -/
def Thread.header (t : Thread ω) (w : Work) : Header :=
  { w.header with time := w.header.time + t.ntimeRoll, nonce := t.nonce }

variable (sha256 : List UInt8 → Bytes32)

/-- The share for the header a thread hashes next, if it meets the target. -/
def Thread.found (cfg : WorkerConfig) (t : Thread ω) (w : Work) : Option Share :=
  let h := t.header w
  let hash := hashHeader sha256 h
  if Hash.lessOrEqual hash w.target then
    some { channelID := w.channelID, jobID := w.jobID, nonce := t.nonce,
           nTime := h.time, version := h.version, hash := hash, target := w.target,
           deviceID := cfg.deviceID, extraNonce := w.extraNonce }
  else none

/-- What a found share repeats from the work and the hashed header. -/
theorem Thread.found_eq_some {cfg : WorkerConfig} {t : Thread ω} {w : Work} {sh : Share}
    (h : t.found sha256 cfg w = some sh) :
    sh.jobID = w.jobID ∧ sh.extraNonce = w.extraNonce ∧ sh.nonce = (t.header w).nonce ∧
      sh.nTime = (t.header w).time ∧ sh.version = (t.header w).version ∧
      sh.hash = hashHeader sha256 (t.header w) := by
  simp only [Thread.found] at h
  split at h
  · obtain rfl := Option.some.inj h
    exact ⟨rfl, rfl, rfl, rfl, rfl, rfl⟩
  · cases h

/-- A header that meets the target is a share. -/
theorem Thread.exists_found {cfg : WorkerConfig} {t : Thread ω} {w : Work}
    (h : Hash.lessOrEqual (hashHeader sha256 (t.header w)) w.target = true) :
    ∃ sh, t.found sha256 cfg w = some sh := by
  simp [Thread.found, h]

end Grind

end Otedama.Miner
