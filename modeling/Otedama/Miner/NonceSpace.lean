import Otedama.Framework.Stride
import Otedama.Miner.Worker

/-! # The nonce space

`startMinerWorkers` gives each device a worker, and the threads of all
workers share the 32-bit nonce space of one block header. When a thread
wraps it rolls the timestamp forward, so what must not be repeated is
the pair of roll and nonce.

A thread's `k`-th hash lies at position `start + k * step` of an
unbounded line: the nonce is its remainder modulo `2^32` and the number
of rolls the quotient (`position_eq`). From this closed form follow the
partition between threads, the absence of repetitions and the complete
coverage of each roll. -/

namespace Otedama.Miner

open List Nat

/-! ## Worker configurations -/

/-- A detected device: its identity, and whether it can hash SHA-256d. -/
structure Device where
  id : String
  sha256d : Bool
  deriving DecidableEq, Repr

/-- The loop `for uint64(stride) < total { stride <<= 1 }`. It is entered
with `total ≤ 2^31`, so 32 rounds suffice. -/
def growStride (total : Nat) : Nat → UInt32 → UInt32
  | 0, stride => stride
  | fuel + 1, stride =>
      if stride.toNat < total then growStride total fuel (stride <<< 1) else stride

/-- The configuration of the `i`-th of `count` workers. -/
def minerConfig (numCPU count : Nat) (dev : Device) (i : Nat) : WorkerConfig :=
  let cfg : WorkerConfig :=
    { threads := numCPU, nonceStep := 0, nonceOffset := 0, deviceID := dev.id }
  let total := numCPU * count
  -- A single worker, or a layout too large for the stride, keeps the defaults.
  if 1 < count ∧ 0 < total ∧ total ≤ 2 ^ 31 then
    { cfg with nonceOffset := UInt32.ofNat (i * cfg.threads), nonceStep := growStride total 32 1 }
  else cfg

/-- The workers for all SHA-256d devices. -/
def startMinerWorkers (numCPU : Nat) (devices : List Device) :
    Except String (List WorkerConfig) :=
  let sha256d := devices.filter Device.sha256d
  if sha256d.length = 0 then .error "engine: no SHA256d-capable devices found"
  else .ok (sha256d.zipIdx.map fun (dev, i) =>
    newWorker numCPU (minerConfig numCPU sha256d.length dev i))

/-- The loop stops at a power of two that is at least `total`. -/
theorem growStride_eq {total : Nat} (htotal : total ≤ 2 ^ 31) : ∀ fuel e, e + fuel = 32 → e ≤ 31 →
      ∃ e', e ≤ e' ∧ e' ≤ 31 ∧ growStride total fuel (UInt32.ofNat (2 ^ e)) =
        UInt32.ofNat (2 ^ e') ∧ total ≤ 2 ^ e' := by
  -- The stride is always `2^e`; the fuel counts the exponents that are left,
  -- so it cannot run out before the exponent reaches 31.
  intro fuel
  induction fuel with
  | zero => intro e hsum he; omega
  | succ fuel ih =>
    intro e hsum he
    have hpow : (2 : Nat) ^ e ≤ 2 ^ 31 := Nat.pow_le_pow_right (by decide) he
    have htoNat : (UInt32.ofNat (2 ^ e)).toNat = 2 ^ e :=
      UInt32.toNat_ofNat_of_lt' (by simp [UInt32.size]; omega)
    rw [growStride, htoNat]
    split
    · next hlt =>
      -- At 2^31 the stride is no longer below `total`, so the shift keeps the bit.
      have he' : e + 1 ≤ 31 := by
        by_contra hnot
        obtain rfl : e = 31 := by omega
        omega
      have hshift : UInt32.ofNat (2 ^ e) <<< 1 = UInt32.ofNat (2 ^ (e + 1)) := by
        apply UInt32.toNat_inj.mp
        have hpow' : (2 : Nat) ^ (e + 1) ≤ 2 ^ 31 := Nat.pow_le_pow_right (by decide) he'
        have hlt' : (2 : Nat) ^ (e + 1) < UInt32.size := by simp [UInt32.size]; omega
        rw [UInt32.toNat_shiftLeft, htoNat, UInt32.toNat_ofNat_of_lt' hlt']
        have hone : (1 : UInt32).toNat % 32 = 1 := rfl
        rw [hone, shiftLeft_eq, pow_one, ← pow_succ]
        exact mod_eq_of_lt hlt'
      rw [hshift]
      obtain ⟨e', h1, h2, h3, h4⟩ := ih (e + 1) (by omega) he'
      exact ⟨e', by omega, h2, h3, h4⟩
    · next hge => exact ⟨e, le_refl e, he, rfl, by omega⟩

/-- The layout that `startMinerWorkers` sets up: a common step, no smaller
than the number of threads of all workers, and adjacent offsets. -/
structure Layout (threads : Nat) (cfgs : List WorkerConfig) (step : Nat) : Prop where
  room : cfgs.length * threads ≤ step
  /-- A single worker steps by its thread count. -/
  single : cfgs.length = 1 → step = threads
  /-- Several workers step by a power of two. -/
  several : cfgs.length ≠ 1 → step ∣ 2 ^ 32
  step_eq : ∀ (i : Nat) cfg, cfgs[i]? = some cfg → cfg.nonceStep.toNat = step
  offset_eq : ∀ (i : Nat) cfg, cfgs[i]? = some cfg → cfg.nonceOffset.toNat = i * threads

/-- One worker: the defaults of `NewWorker` apply. -/
theorem layout_single {threads : Nat} (hthreads : 1 ≤ threads) (hsmall : threads ≤ 2 ^ 31)
    (dev : Device) : Layout threads [newWorker threads (minerConfig threads 1 dev 0)] threads := by
  have hcfg : newWorker threads (minerConfig threads 1 dev 0) =
      { threads := threads, nonceStep := UInt32.ofNat threads, nonceOffset := 0,
        deviceID := dev.id } := by
    have hne : threads ≠ 0 := by omega
    simp [newWorker, minerConfig, hne]
  have hget : ∀ (i : Nat) cfg, [newWorker threads (minerConfig threads 1 dev 0)][i]? = some cfg →
      i = 0 ∧ cfg = newWorker threads (minerConfig threads 1 dev 0) := by
    intro i cfg h
    cases i with
    | zero => exact ⟨rfl, by simpa using h.symm⟩
    | succ i => simp at h
  refine ⟨by simp, fun _ => rfl, fun h => absurd rfl h, ?_, ?_⟩
  · intro i cfg h
    rw [(hget i cfg h).2, hcfg]
    exact UInt32.toNat_ofNat_of_lt' (by simp [UInt32.size]; omega)
  · intro i cfg h
    rw [(hget i cfg h).2, hcfg, (hget i cfg h).1, zero_mul]
    rfl

/-- Several workers: a power-of-two stride and offsets in steps of the thread
count. -/
theorem layout_several {threads : Nat} {devices : List Device} (hthreads : 1 ≤ threads)
    (hcount : 1 < devices.length) (hsmall : devices.length * threads ≤ 2 ^ 31) :
    ∃ step, Layout threads (devices.zipIdx.map fun (dev, i) =>
      newWorker threads (minerConfig threads devices.length dev i)) step := by
  have htotal : threads * devices.length ≤ 2 ^ 31 := by rw [mul_comm]; exact hsmall
  have hpos : 0 < threads * devices.length := Nat.mul_pos hthreads (by omega)
  obtain ⟨e, _, he, hstride, hroom⟩ := growStride_eq htotal 32 0 rfl (by decide)
  have hpow : (2 : Nat) ^ e ≤ 2 ^ 31 := Nat.pow_le_pow_right (by decide) he
  have hstride' : growStride (threads * devices.length) 32 1 = UInt32.ofNat (2 ^ e) := hstride
  have htoNat : (UInt32.ofNat (2 ^ e)).toNat = 2 ^ e :=
    UInt32.toNat_ofNat_of_lt' (by simp [UInt32.size]; omega)
  have hcfg : ∀ dev i, newWorker threads (minerConfig threads devices.length dev i) =
      { threads := threads, nonceStep := UInt32.ofNat (2 ^ e),
        nonceOffset := UInt32.ofNat (i * threads), deviceID := dev.id } := by
    intro dev i
    have hne : threads ≠ 0 := by omega
    -- `NewWorker` replaces a zero step, so the stride must not wrap to zero.
    have hstep : UInt32.ofNat (2 ^ e) ≠ 0 := by
      intro hzero
      rw [hzero] at htoNat
      have hpowpos : 0 < (2 : Nat) ^ e := Nat.pow_pos (by decide)
      simp at htoNat
      omega
    have hminer : minerConfig threads devices.length dev i =
        { threads := threads, nonceStep := UInt32.ofNat (2 ^ e),
          nonceOffset := UInt32.ofNat (i * threads), deviceID := dev.id } := by
      rw [← hstride']
      exact if_pos ⟨hcount, hpos, htotal⟩
    simp only [newWorker, hminer, if_neg hne, if_neg hstep]
  have hget : ∀ (i : Nat) cfg, (devices.zipIdx.map fun (dev, i) =>
      newWorker threads (minerConfig threads devices.length dev i))[i]? = some cfg →
      i < devices.length ∧ ∃ dev, cfg = newWorker threads
        (minerConfig threads devices.length dev i) := by
    intro i cfg h
    rw [getElem?_map, getElem?_zipIdx, zero_add] at h
    cases hdev : devices[i]? with
    | none => simp [hdev] at h
    | some dev =>
      have hlt : i < devices.length := (List.getElem?_eq_some_iff.mp hdev).1
      refine ⟨hlt, dev, ?_⟩
      simpa [hdev] using h.symm
  refine ⟨2 ^ e, ?_, ?_, ?_, ?_, ?_⟩
  · simpa [mul_comm] using hroom
  · intro hone
    simp only [length_map, length_zipIdx] at hone
    omega
  · intro _
    exact Nat.pow_dvd_pow 2 (by omega)
  · intro i cfg h
    obtain ⟨_, dev, rfl⟩ := hget i cfg h
    rw [hcfg]
    exact htoNat
  · intro i cfg h
    obtain ⟨hlt, dev, rfl⟩ := hget i cfg h
    rw [hcfg]
    have hle : i * threads ≤ devices.length * threads := Nat.mul_le_mul_right threads (by omega)
    exact UInt32.toNat_ofNat_of_lt' (by simp [UInt32.size]; omega)

/-- What `startMinerWorkers` returns has a layout. -/
theorem startMinerWorkers_layout {threads : Nat} {devices : List Device}
    {cfgs : List WorkerConfig} (h : startMinerWorkers threads devices = .ok cfgs)
    (hthreads : 1 ≤ threads) (hsmall : cfgs.length * threads ≤ 2 ^ 31) :
    ∃ step, Layout threads cfgs step := by
  simp only [startMinerWorkers] at h
  split at h
  · cases h
  · next hne =>
    obtain rfl := Except.ok.inj h
    rw [length_map, length_zipIdx] at hsmall
    cases hdevs : devices.filter Device.sha256d with
    | nil => simp [hdevs] at hne
    | cons dev rest =>
      rw [hdevs] at hsmall
      cases rest with
      | nil => exact ⟨threads, layout_single hthreads (by simpa using hsmall) dev⟩
      | cons dev' rest => exact layout_several hthreads (by simp) hsmall

/-! ## Positions -/

/-- A thread after `k` hashes of one fixed work. -/
def nthHash (cfg : WorkerConfig) (threadID k : Nat) : Thread Work :=
  (Thread.advance cfg)^[k] (Thread.init cfg threadID)

/-- The roll and the nonce of a thread's `k`-th hash. -/
def hashedPair (cfg : WorkerConfig) (threadID k : Nat) : UInt32 × UInt32 :=
  ((nthHash cfg threadID k).ntimeRoll, (nthHash cfg threadID k).nonce)

/-- How often the nonce wrapped before the `k`-th hash. -/
def rolls (cfg : WorkerConfig) (threadID : Nat) : Nat → Nat
  | 0 => 0
  | k + 1 => rolls cfg threadID k +
      if (nthHash cfg threadID (k + 1)).nonce < (nthHash cfg threadID k).nonce then 1 else 0

section

variable (cfg : WorkerConfig) (threadID k : Nat)

theorem nthHash_succ :
    nthHash cfg threadID (k + 1) = (nthHash cfg threadID k).advance cfg :=
  Function.iterate_succ_apply' ..

/-- **Closed form.** -/
theorem position_eq : (nthHash cfg threadID k).nonce.toNat + 2 ^ 32 * rolls cfg threadID k =
      (cfg.startNonce threadID).toNat + k * cfg.nonceStep.toNat := by
  induction k with
  | zero => simp [nthHash, Thread.init, rolls]
  | succ k ih =>
    -- The source detects the wrap by `nonce < prev`; that is the carry.
    have hcarry := Stride.carry (nthHash cfg threadID k).nonce cfg.nonceStep
    have hnonce : (nthHash cfg threadID (k + 1)).nonce =
        (nthHash cfg threadID k).nonce + cfg.nonceStep := by
      rw [nthHash_succ]
      rfl
    rw [rolls, hnonce, mul_add, succ_mul]
    omega

/-- The thread's 32-bit roll counter. -/
theorem ntimeRoll_eq :
    (nthHash cfg threadID k).ntimeRoll = UInt32.ofNat (rolls cfg threadID k) := by
  induction k with
  | zero => rfl
  | succ k ih =>
    rw [rolls, nthHash_succ]
    show (if (nthHash cfg threadID k).nonce + cfg.nonceStep < (nthHash cfg threadID k).nonce then
      (nthHash cfg threadID k).ntimeRoll + 1 else (nthHash cfg threadID k).ntimeRoll) =
      UInt32.ofNat (rolls cfg threadID k + if (nthHash cfg threadID k).nonce + cfg.nonceStep <
        (nthHash cfg threadID k).nonce then 1 else 0)
    rw [ih]
    split
    · rw [UInt32.ofNat_add]
      rfl
    · rfl

end

section

variable {threads step : Nat} {cfgs : List WorkerConfig} {cfg cfg' : WorkerConfig} {i j a b : Nat}

section

variable (hlay : Layout threads cfgs step) (hsmall : cfgs.length * threads ≤ 2 ^ 31)
  (hi : cfgs[i]? = some cfg) (ha : a < threads)

include hlay hsmall hi ha

/-- Where a thread of a laid-out worker starts. -/
theorem Layout.startNonce_eq :
    (cfg.startNonce a).toNat = i * threads + a ∧ i * threads + a < cfgs.length * threads := by
  have hlt : i < cfgs.length := (List.getElem?_eq_some_iff.mp hi).1
  have hbound : i * threads + a < cfgs.length * threads := by
    have hle : (i + 1) * threads ≤ cfgs.length * threads := Nat.mul_le_mul_right threads hlt
    rw [succ_mul] at hle
    omega
  have ha' : (UInt32.ofNat a).toNat = a := UInt32.toNat_ofNat_of_lt' (by simp [UInt32.size]; omega)
  refine ⟨?_, hbound⟩
  rw [WorkerConfig.startNonce, UInt32.toNat_add, hlay.offset_eq i cfg hi, ha']
  exact mod_eq_of_lt (by omega)

/-- The closed form for a laid-out worker. -/
theorem Layout.position (k : Nat) :
    (nthHash cfg a k).nonce.toNat + 2 ^ 32 * rolls cfg a k = (i * threads + a) + k * step := by
  rw [position_eq, (hlay.startNonce_eq hsmall hi ha).1, hlay.step_eq i cfg hi]

end

/-- Equal numbers of worker and thread. -/
theorem pair_of_index {n : Nat} (ha : a < n) (hb : b < n) (h : i * n + a = j * n + b) :
    i = j ∧ a = b := by
  have hvisit := Stride.visit_unique ha hb (by omega : a + i * n = b + j * n)
  exact ⟨hvisit.2, hvisit.1⟩

/-- The same pair within the first `2^32` rolls means the same position. -/
theorem rolls_eq_of_pair_eq {k l : Nat} (hk : rolls cfg a k < 2 ^ 32)
    (hl : rolls cfg' b l < 2 ^ 32) (h : hashedPair cfg a k = hashedPair cfg' b l) :
    rolls cfg a k = rolls cfg' b l ∧
      (nthHash cfg a k).nonce.toNat = (nthHash cfg' b l).nonce.toNat := by
  have hroll : (nthHash cfg a k).ntimeRoll = (nthHash cfg' b l).ntimeRoll := congrArg Prod.fst h
  have hnonce : (nthHash cfg a k).nonce = (nthHash cfg' b l).nonce := congrArg Prod.snd h
  rw [ntimeRoll_eq, ntimeRoll_eq] at hroll
  have htoNat := congrArg UInt32.toNat hroll
  rw [UInt32.toNat_ofNat_of_lt' (by simpa [UInt32.size] using hk),
    UInt32.toNat_ofNat_of_lt' (by simpa [UInt32.size] using hl)] at htoNat
  exact ⟨htoNat, congrArg UInt32.toNat hnonce⟩

/-- Within the first `2^32` rolls no pair is hashed twice, neither by two
threads nor by one. -/
theorem Layout.no_repeat (hlay : Layout threads cfgs step)
    (hsmall : cfgs.length * threads ≤ 2 ^ 31) (hi : cfgs[i]? = some cfg)
    (hj : cfgs[j]? = some cfg') (ha : a < threads) (hb : b < threads) {k l : Nat}
    (hk : rolls cfg a k < 2 ^ 32) (hl : rolls cfg' b l < 2 ^ 32)
    (h : hashedPair cfg a k = hashedPair cfg' b l) : (i = j ∧ a = b) ∧ k = l := by
  obtain ⟨hroll, hnonce⟩ := rolls_eq_of_pair_eq hk hl h
  have hposA := hlay.position hsmall hi ha k
  have hposB := hlay.position hsmall hj hb l
  have hsame : (i * threads + a) + k * step = (j * threads + b) + l * step := by
    rw [← hposA, ← hposB, hroll, hnonce]
  -- Starts lie below the step, so a position determines start and visit.
  have hroom := hlay.room
  have hltA := (hlay.startNonce_eq hsmall hi ha).2
  have hltB := (hlay.startNonce_eq hsmall hj hb).2
  obtain ⟨hindex, hkl⟩ := Stride.visit_unique (by omega) (by omega) hsame
  exact ⟨pair_of_index ha hb hindex, hkl⟩

/-- If the step divides the nonce space, different threads never hash the same
nonce, however often they roll. -/
theorem Layout.separate (hlay : Layout threads cfgs step) (hdvd : step ∣ 2 ^ 32)
    (hsmall : cfgs.length * threads ≤ 2 ^ 31) (hi : cfgs[i]? = some cfg)
    (hj : cfgs[j]? = some cfg') (ha : a < threads) (hb : b < threads) {k l : Nat}
    (h : (nthHash cfg a k).nonce = (nthHash cfg' b l).nonce) : i = j ∧ a = b := by
  have hposA := hlay.position hsmall hi ha k
  have hposB := hlay.position hsmall hj hb l
  have hnonce : (nthHash cfg a k).nonce.toNat = (nthHash cfg' b l).nonce.toNat :=
    congrArg UInt32.toNat h
  -- Rolls vanish modulo `2^32`, and modulo the step only the starts remain.
  have hmod : ((i * threads + a) + k * step) % 2 ^ 32 =
      ((j * threads + b) + l * step) % 2 ^ 32 := by
    rw [← hposA, ← hposB, add_mul_mod_self_left, add_mul_mod_self_left, hnonce]
  have hres := Stride.residue_of_modEq hdvd hmod
  have hroom := hlay.room
  have hltA := (hlay.startNonce_eq hsmall hi ha).2
  have hltB := (hlay.startNonce_eq hsmall hj hb).2
  rw [mod_eq_of_lt (by omega), mod_eq_of_lt (by omega)] at hres
  exact pair_of_index ha hb hres

/-- A thread that has completed a roll has done every hash of it. -/
theorem rolls_mono (cfg : WorkerConfig) (a : Nat) {k l : Nat} (h : k ≤ l) :
    rolls cfg a k ≤ rolls cfg a l := by
  induction l with
  | zero =>
    obtain rfl : k = 0 := by omega
    exact le_rfl
  | succ l ih =>
    rcases Nat.lt_or_ge l k with hlt | hge
    · obtain rfl : k = l + 1 := by omega
      exact le_rfl
    · rw [rolls]
      exact (ih hge).trans (le_add_right _ _)

/-- For one worker: in a roll that all threads have completed, every nonce was
hashed exactly once. -/
theorem Layout.covers (hlay : Layout threads [cfg] step) (hthreads : 1 ≤ threads)
    (hsmall : threads ≤ 2 ^ 31) (r : Nat) (done : Nat → Nat)
    (hdone : ∀ a < threads, r < rolls cfg a (done a)) (nonce : UInt32) :
    ∃! visit : Nat × Nat, visit.1 < threads ∧ visit.2 < done visit.1 ∧
      rolls cfg visit.1 visit.2 = r ∧ (nthHash cfg visit.1 visit.2).nonce = nonce := by
  have hsmall' : [cfg].length * threads ≤ 2 ^ 31 := by simpa using hsmall
  have hstep : step = threads := hlay.single rfl
  subst hstep
  have hpos : ∀ a < step, ∀ k,
      (nthHash cfg a k).nonce.toNat + 2 ^ 32 * rolls cfg a k = a + k * step := by
    intro a ha k
    have hp := hlay.position hsmall' (i := 0) rfl ha k
    omega
  -- The position of `nonce` in roll `r` belongs to one residue of the step.
  obtain ⟨a, k, ha, hvisit⟩ := Stride.exists_visit hthreads (nonce.toNat + 2 ^ 32 * r)
  have hk := hpos a ha k
  have hnonceLt := nonce.toNat_lt
  have hlt := (nthHash cfg a k).nonce.toNat_lt
  have hr : rolls cfg a k = r := by omega
  have hn : (nthHash cfg a k).nonce.toNat = nonce.toNat := by omega
  refine ⟨(a, k), ⟨ha, ?_, hr, UInt32.toNat_inj.mp hn⟩, ?_⟩
  · -- A later hash would lie in a later roll.
    by_contra hge
    have hmono : rolls cfg a (done a) ≤ rolls cfg a k := rolls_mono cfg a (Nat.le_of_not_lt hge)
    have hd := hdone a ha
    omega
  · rintro ⟨a', k'⟩ ⟨ha', _, hr', hn'⟩
    have hk' := hpos a' ha' k'
    rw [hr', hn'] at hk'
    have hsame : a' + k' * step = a + k * step := by omega
    obtain ⟨rfl, rfl⟩ := Stride.visit_unique ha' ha hsame
    rfl

end

/-! ## The partition -/

/-- **Nonce-space partition.**  For the workers that `startMinerWorkers` sets
up, with one work held fixed:

* different threads hash different pairs of roll and nonce as long as both
  are within their first `2^32` rolls, and for ever if there are several
  workers or the thread count divides the nonce space;
* no thread repeats a pair during its first `2^32` rolls;
* the threads of a single worker hash every nonce exactly once in each
  roll that all of them have completed. -/
theorem nonce_space_partition (threads : Nat) (devices : List Device) (cfgs : List WorkerConfig)
    (hstart : startMinerWorkers threads devices = .ok cfgs) (hthreads : 1 ≤ threads)
    (hsmall : cfgs.length * threads ≤ 2 ^ 31) :
    (∀ (i j : Nat) cfg cfg' a b, cfgs[i]? = some cfg → cfgs[j]? = some cfg' → a < threads →
      b < threads → (i, a) ≠ (j, b) → ∀ k l,
      ((rolls cfg a k < 2 ^ 32 ∧ rolls cfg' b l < 2 ^ 32) ∨ cfgs.length ≠ 1 ∨
        threads ∣ 2 ^ 32) → hashedPair cfg a k ≠ hashedPair cfg' b l) ∧
    (∀ (i : Nat) cfg a, cfgs[i]? = some cfg → a < threads → ∀ k l, k ≠ l →
      rolls cfg a k < 2 ^ 32 → rolls cfg a l < 2 ^ 32 →
      hashedPair cfg a k ≠ hashedPair cfg a l) ∧
    (∀ cfg, cfgs = [cfg] → ∀ (r : Nat) (done : Nat → Nat),
      (∀ a < threads, r < rolls cfg a (done a)) → ∀ nonce : UInt32,
      ∃! visit : Nat × Nat, visit.1 < threads ∧ visit.2 < done visit.1 ∧
        rolls cfg visit.1 visit.2 = r ∧ (nthHash cfg visit.1 visit.2).nonce = nonce) := by
  obtain ⟨step, hlay⟩ := startMinerWorkers_layout hstart hthreads hsmall
  refine ⟨?_, ?_, ?_⟩
  · intro i j cfg cfg' a b hi hj ha hb hne k l hwhen heq
    apply hne
    rcases hwhen with ⟨hk, hl⟩ | hstep
    · obtain ⟨⟨rfl, rfl⟩, _⟩ := hlay.no_repeat hsmall hi hj ha hb hk hl heq
      rfl
    · -- The step divides the nonce space: a power of two, or the thread count.
      have hdvd : step ∣ 2 ^ 32 := by
        by_cases hone : cfgs.length = 1
        · rw [hlay.single hone]
          rcases hstep with hsev | hdvd
          · exact absurd hone hsev
          · exact hdvd
        · exact hlay.several hone
      obtain ⟨rfl, rfl⟩ := hlay.separate hdvd hsmall hi hj ha hb (congrArg Prod.snd heq)
      rfl
  · intro i cfg a hi ha k l hne hk hl heq
    exact hne (hlay.no_repeat hsmall hi hi ha ha hk hl heq).2
  · rintro cfg rfl r done hdone nonce
    exact hlay.covers hthreads (by simpa using hsmall) r done hdone nonce

/-- A single device with three threads. -/
def threeThreads : WorkerConfig :=
  { threads := 3, nonceStep := 3, nonceOffset := 0, deviceID := "cpu-0" }

theorem startMinerWorkers_threeThreads :
    startMinerWorkers 3 [{ id := "cpu-0", sha256d := true }] = .ok [threeThreads] := by
  decide

/-- Threads 0 and 1 of three start on different nonces and never meet within
their first `2^32` rolls. -/
theorem threeThreads_apart :
    rolls threeThreads 0 1 < 2 ^ 32 ∧ hashedPair threeThreads 0 1 ≠ hashedPair threeThreads 1 0 :=
  ⟨by decide,
    (nonce_space_partition 3 [{ id := "cpu-0", sha256d := true }] [threeThreads]
      startMinerWorkers_threeThreads (by decide) (by decide)).1 0 0 threeThreads threeThreads 0 1
      rfl rfl (by decide) (by decide) (by decide) 1 0 (.inl ⟨by decide, by decide⟩)⟩

/-- With three threads the 32-bit roll counter comes round before the nonces
do: after `2^32` rolls thread 0 hashes what thread 2 began with. -/
theorem threeThreads_meet :
    startMinerWorkers 3 [{ id := "cpu-0", sha256d := true }] = .ok [threeThreads] ∧
      hashedPair threeThreads 0 6148914691236517206 = hashedPair threeThreads 2 0 := by
  refine ⟨startMinerWorkers_threeThreads, ?_⟩
  -- Too many hashes to run: the closed form places the last one.
  have hpos := position_eq threeThreads 0 6148914691236517206
  have hstart : (threeThreads.startNonce 0).toNat = 0 := by decide
  have hstep : threeThreads.nonceStep.toNat = 3 := by decide
  have hlt := (nthHash threeThreads 0 6148914691236517206).nonce.toNat_lt
  rw [hstart, hstep] at hpos
  have hrolls : rolls threeThreads 0 6148914691236517206 = 2 ^ 32 := by omega
  have hnonce : (nthHash threeThreads 0 6148914691236517206).nonce.toNat = 2 := by omega
  have hroll : (nthHash threeThreads 0 6148914691236517206).ntimeRoll = 0 := by
    rw [ntimeRoll_eq, hrolls]
    rfl
  have hnonce' : (nthHash threeThreads 0 6148914691236517206).nonce = 2 :=
    UInt32.toNat_inj.mp hnonce
  rw [hashedPair, hroll, hnonce']
  rfl

end Otedama.Miner
