import Mathlib.Algebra.Order.Ring.Rat
import Mathlib.Data.List.DropRight
import Otedama.Framework.Machine

/-! # The stats tick

On every tick a session looks at what its workers have counted. The monitor
reports a stall exactly while enough samples in a row are low (`monitor_run`).
Drops go to a counter that outlives the session, but each session compares
with zero first and so adds the drops of the earlier ones once more
(`sharesWorkerDropped_eq`). Hashrates are rationals; NaN is left out. -/

namespace Otedama.Engine

open List

/-! ## The stall monitor -/

inductive StallLog where
  | stalled (hashrate : ℚ) (samples : Nat)
  | recovered

structure HashrateMonitor where
  floor : ℚ
  maxStall : Nat
  stallCount : Nat
  warned : Bool

def newHashrateMonitor (floor : ℚ) (maxStall : Int) : HashrateMonitor :=
  ⟨floor, if maxStall < 1 then 3 else maxStall.toNat, 0, false⟩

def HashrateMonitor.observe (m : HashrateMonitor) (hashrate : ℚ) :
    HashrateMonitor × List StallLog :=
  if hashrate ≤ m.floor then
    let m := { m with stallCount := m.stallCount + 1 }
    if m.maxStall ≤ m.stallCount && !m.warned then
      ({ m with warned := true }, [.stalled hashrate m.stallCount])
    else (m, [])
  else ({ m with stallCount := 0, warned := false }, if m.warned then [.recovered] else [])

/-- `updateLiveness`; a sample says whether the miner is curtailed or all its
devices are paused, and gives the hashrate. -/
def updateLiveness : Machine HashrateMonitor (Bool × ℚ) StallLog where
  step m sample := if sample.1 then (m, []) else m.observe sample.2

/-- The samples that count since the last one above the floor. -/
def lowSamples (floor : ℚ) (samples : List (Bool × ℚ)) : Nat :=
  ((samples.filter fun s => !s.1).rtakeWhile fun s => s.2 ≤ floor).length

/-- The monitor after `low` low samples in a row. -/
def HashrateMonitor.after (m : HashrateMonitor) (low : Nat) : HashrateMonitor :=
  { m with stallCount := low, warned := m.maxStall ≤ low }

theorem HashrateMonitor.observe_after {m : HashrateMonitor} (hpos : 0 < m.maxStall) (low : Nat)
    (hashrate : ℚ) : ((m.after low).observe hashrate).1 =
      m.after (if hashrate ≤ m.floor then low + 1 else 0) := by
  unfold HashrateMonitor.observe HashrateMonitor.after
  dsimp only
  by_cases hlow : hashrate ≤ m.floor
  · rw [if_pos hlow, if_pos hlow]
    by_cases hlimit : m.maxStall ≤ low + 1
    · by_cases hwarned : m.maxStall ≤ low <;> simp [hlimit, hwarned]
    · have hwarned : ¬ m.maxStall ≤ low := by omega
      simp [hlimit, hwarned]
  · rw [if_neg hlow, if_neg hlow]
    simp [hpos.ne']

/-- After any samples, the monitor has counted the low ones in a row and has
warned exactly if they are enough. -/
theorem monitor_run (floor : ℚ) (maxStall : Int) (samples : List (Bool × ℚ)) :
    updateLiveness.run (newHashrateMonitor floor maxStall) samples =
      (newHashrateMonitor floor maxStall).after (lowSamples floor samples) := by
  have hpos : 0 < (newHashrateMonitor floor maxStall).maxStall := by
    unfold newHashrateMonitor
    dsimp only
    split <;> omega
  induction samples using reverseRecOn with
  | nil =>
    unfold HashrateMonitor.after
    rw [show lowSamples floor [] = 0 from rfl, decide_eq_false (by omega)]
    rfl
  | append_singleton samples s ih =>
    obtain ⟨paused, rate⟩ := s
    rw [Machine.run_append, ih, Machine.run_cons, Machine.run_nil]
    cases paused with
    | true => simp [updateLiveness, lowSamples]
    | false =>
      refine (HashrateMonitor.observe_after hpos _ rate).trans (congrArg _ ?_)
      by_cases hlow : rate ≤ floor <;> simp [lowSamples, hlow, newHashrateMonitor]

/-! ## Drops of the workers -/

/-- `lastDropped` of the session, and the counter. -/
structure DropCount where
  lastDropped : Nat
  sharesWorkerDropped : Nat

/-- A tick on which the workers report `dropped` shares in all. -/
def DropCount.tick (c : DropCount) (dropped : Nat) : DropCount where
  lastDropped := dropped
  sharesWorkerDropped :=
    if dropped = c.lastDropped then c.sharesWorkerDropped
    else if c.lastDropped < dropped then c.sharesWorkerDropped + (dropped - c.lastDropped)
    else c.sharesWorkerDropped + dropped

/-- The counter after the ticks of one more session. -/
def droppedAfter (counter : Nat) (ticks : List Nat) : Nat :=
  (ticks.foldl DropCount.tick ⟨0, counter⟩).sharesWorkerDropped

theorem DropCount.run_add {c : DropCount} {ticks : List Nat}
    (h : (c.lastDropped :: ticks).IsChain (· ≤ ·)) :
    (ticks.foldl DropCount.tick c).sharesWorkerDropped + c.lastDropped =
      c.sharesWorkerDropped + ticks.getLastD c.lastDropped := by
  induction ticks generalizing c with
  | nil => rfl
  | cons d ticks ih =>
    obtain ⟨hle, hrest⟩ := isChain_cons_cons.mp h
    have hcount := ih (c := c.tick d) hrest
    have htick : (c.tick d).sharesWorkerDropped + c.lastDropped = c.sharesWorkerDropped + d := by
      unfold DropCount.tick
      dsimp only
      split
      · omega
      · rw [if_pos (by omega)]
        omega
    rw [foldl_cons, getLastD_cons]
    change _ + d = _ + ticks.getLastD d at hcount
    omega

/-- A session adds what it saw last. -/
theorem droppedAfter_eq (counter : Nat) {ticks : List Nat} (h : ticks.IsChain (· ≤ ·)) :
    droppedAfter counter ticks = counter + ticks.getLastD 0 := by
  have hchain : (0 :: ticks).IsChain (· ≤ ·) := by
    cases ticks with
    | nil => exact .singleton 0
    | cons d ticks => exact .cons_cons (Nat.zero_le d) h
  exact DropCount.run_add (c := ⟨0, counter⟩) hchain

/-- The counter is the sum of what each session saw last. As the workers count
on, the totals are one chain over all sessions, and then a session adds its
own drops and all earlier ones once more. -/
theorem sharesWorkerDropped_eq {sessions : List (List Nat)}
    (h : ∀ ticks ∈ sessions, ticks.IsChain (· ≤ ·)) :
    sessions.foldl droppedAfter 0 =
      sessions.foldl (fun total ticks => total + ticks.getLastD 0) 0 ∧
    ∀ earlier ticks, sessions = earlier ++ [ticks] → ticks ≠ [] →
      sessions.flatten.IsChain (· ≤ ·) →
      ∃ own, earlier.flatten.getLastD 0 + own = ticks.getLastD 0 ∧
        sessions.foldl droppedAfter 0 =
          earlier.foldl droppedAfter 0 + own + earlier.flatten.getLastD 0 := by
  refine ⟨foldl_ext _ _ 0 fun counter ticks hticks => droppedAfter_eq counter (h _ hticks), ?_⟩
  rintro earlier ticks rfl hne hchain
  have hlast : earlier.flatten.getLastD 0 ≤ ticks.getLastD 0 := by
    rw [flatten_append, isChain_iff_pairwise, pairwise_append] at hchain
    rcases mem_cons.mp (getLastD_mem_cons (l := earlier.flatten) (a := 0)) with hzero | hmem
    · omega
    · refine hchain.2.2 _ hmem _ ?_
      rw [flatten_singleton, getLastD_eq_getLast?, getLast?_eq_getLast_of_ne_nil hne]
      exact getLast_mem hne
  refine ⟨ticks.getLastD 0 - earlier.flatten.getLastD 0, by omega, ?_⟩
  rw [foldl_append, foldl_cons, foldl_nil, droppedAfter_eq _ (h ticks (by simp))]
  omega

/-- Three drops in the first session are counted twice. -/
theorem sharesWorkerDropped_eq_twice : [[1, 3], [3, 4]].foldl droppedAfter 0 = 7 ∧
    ∃ own, 3 + own = 4 ∧ [[1, 3], [3, 4]].foldl droppedAfter 0 = 3 + own + 3 := by
  obtain ⟨hsum, hrepeat⟩ := @sharesWorkerDropped_eq [[1, 3], [3, 4]] (by decide)
  exact ⟨hsum, hrepeat [[1, 3]] [3, 4] rfl (by decide) (by decide)⟩

end Otedama.Engine
