import Mathlib.Data.String.Basic
import Otedama.Arbitration.Format
import Otedama.Framework.GoMap
import Otedama.Framework.Ranking

/-! # Deciding which stream a device works for

The arbitration engine: given the devices, the revenue streams with the
yields they quote, and the allocation of the previous cycle, `Decide`
assigns each device the stream that scores best under the policy, or
leaves it on its previous stream when the gain is within the hysteresis
margin, or leaves it idle.

Yields, margins and scores are exact rationals; the checks for NaN and
infinities fall away. -/

namespace Otedama.Arbitration

open List

/-! ## Streams and devices -/

/-- `hal.Family`. -/
inductive Family where
  | asic
  | gpu
  | cpu
  | other (name : String)
  deriving DecidableEq, Repr

/-- An expected revenue rate and how far it is to be trusted. -/
structure Yield where
  satsPerSecond : ℚ
  confidence : ℚ
  deriving DecidableEq, Repr

/-- `Yield{}`. -/
def Yield.zero : Yield := { satsPerSecond := 0, confidence := 0 }

/-- The confidence-adjusted yield; the confidence counts for at most 1. -/
def Yield.effective (y : Yield) : ℚ :=
  if 0 < y.satsPerSecond ∧ 0 < y.confidence then y.satsPerSecond * min y.confidence 1 else 0

/-- A revenue source and what it pays. -/
structure Stream where
  id : String
  acceptsFamilies : List Family
  yieldPerDevice : GoMap String Yield
  defaultYield : Yield
  privacyRating : Int
  environmentalRating : Int
  isBitcoinMining : Bool

def Stream.accepts (s : Stream) (f : Family) : Bool := f ∈ s.acceptsFamilies

def Stream.yieldFor (s : Stream) (id : String) : Yield :=
  (s.yieldPerDevice.lookup id).getD s.defaultYield

/-- The identity of a device, as far as arbitration reads it. -/
structure DeviceRef where
  id : String
  family : Family
  deriving DecidableEq, Repr

/-- What the stream would effectively pay for the device. -/
def Stream.effectiveFor (s : Stream) (dev : DeviceRef) : ℚ := (s.yieldFor dev.id).effective

inductive Policy where
  | maximizeEarnings
  | stackBTC
  | maximizePrivacy
  | environmentFriendly
  /-- Any other value of the integer type. -/
  | unknown (n : Int)
  deriving DecidableEq, Repr

def Policy.string : Policy → String
  | .maximizeEarnings => "maximize_earnings"
  | .stackBTC => "stack_btc"
  | .maximizePrivacy => "maximize_privacy"
  | .environmentFriendly => "environment_friendly"
  | .unknown n => "unknown(" ++ toString n ++ ")"

def Policy.valid : Policy → Bool
  | .unknown _ => false
  | _ => true

def btcStackBonus : ℚ := 105 / 100

def ratingBonusPerPoint : ℚ := 1 / 100

/-- The score by which streams are compared under a policy. -/
def policyScore (s : Stream) (yield : ℚ) : Policy → ℚ
  | .stackBTC => if s.isBitcoinMining then yield * btcStackBonus else yield
  | .maximizePrivacy => yield * (1 + s.privacyRating * ratingBonusPerPoint)
  | .environmentFriendly => yield * (1 + s.environmentalRating * ratingBonusPerPoint)
  | .maximizeEarnings => yield
  | .unknown _ => yield

/-! ## Allocations -/

/-- The decision for a single device; the empty stream leaves it idle. -/
structure Assignment where
  deviceID : String
  stream : String
  expectedYield : ℚ
  switchedFromID : String
  reason : String
  held : Bool
  heldIdle : Bool
  foregoneSatsPerSec : ℚ
  deriving DecidableEq, Repr

/-- `Assignment{}`. -/
def Assignment.zero : Assignment where
  deviceID := ""
  stream := ""
  expectedYield := 0
  switchedFromID := ""
  reason := ""
  held := false
  heldIdle := false
  foregoneSatsPerSec := 0

def Assignment.idle (a : Assignment) : Bool := a.stream == ""

structure Allocation where
  assignments : List Assignment
  totalYield : ℚ
  policy : Policy
  skippedDevice : Nat
  deriving DecidableEq, Repr

/-! ## One device -/

/-- A stream with its effective yield for the device being assigned. -/
structure StreamCandidate where
  stream : Stream
  yield : ℚ

def StreamCandidate.score (policy : Policy) (c : StreamCandidate) : ℚ :=
  policyScore c.stream c.yield policy

def StreamCandidate.id (c : StreamCandidate) : String := c.stream.id

/-- The streams that accept the device and clear the floor, and whether some
stream would pay it something but less than the floor. -/
def candidateStreams (dev : DeviceRef) (minYield : ℚ) :
    List Stream → List StreamCandidate × Bool
  | [] => ([], false)
  | s :: streams =>
      let rest := candidateStreams dev minYield streams
      if s.accepts dev.family = false then rest
      else if s.effectiveFor dev ≤ 0 then rest
      else if s.effectiveFor dev < minYield then (rest.1, true)
      else ({ stream := s, yield := s.effectiveFor dev } :: rest.1, rest.2)

/-- The highest yield of a non-empty list of candidates. -/
def maxYield (first : StreamCandidate) (rest : List StreamCandidate) : ℚ :=
  rest.foldl (fun m c => max m c.yield) first.yield

/-- The candidates by descending score, then by stream. -/
def sortCandidates (policy : Policy) (cands : List StreamCandidate) : List StreamCandidate :=
  Ranking.rank StreamCandidate.id (StreamCandidate.score policy) cands

/-- The text for a device that was kept on its stream although another one
ranks first. -/
def heldReason (bestScore incScore hysteresis : ℚ) : String :=
  "held (best gain " ++ fmtFixed 2 ((bestScore - incScore) / max incScore (1 / 10 ^ 9) * 100) ++
    "% below hysteresis " ++ fmtFixed 2 (hysteresis * 100) ++ "%)"

/-- Leave the device on the stream of `c`. It counts as held only when another
stream ranks first. -/
def assignHeld (dev : DeviceRef) (best c : StreamCandidate) (policy : Policy)
    (hysteresis maxRaw : ℚ) : Assignment :=
  let held := best.id != c.id
  { Assignment.zero with
    deviceID := dev.id
    stream := c.id
    expectedYield := c.yield
    reason :=
      if held then heldReason (best.score policy) (c.score policy) hysteresis
      else "incumbent is best; stayed"
    held := held
    foregoneSatsPerSec := maxRaw - c.yield }

/-- Keep the device on its previous stream, when that is still a candidate and
`best` does not beat it by the margin. -/
def incumbentHold (dev : DeviceRef) (candidates : List StreamCandidate) (best : StreamCandidate)
    (previous : Assignment) (policy : Policy) (hysteresis maxRaw : ℚ) : Option Assignment :=
  match candidates.find? fun c => c.id == previous.stream with
  | none => none
  | some c =>
      if c.score policy * (1 + hysteresis) < best.score policy then none
      else some (assignHeld dev best c policy hysteresis maxRaw)

/-- Put the device on the best candidate. -/
def assignBest (dev : DeviceRef) (best : StreamCandidate) (previous : Assignment)
    (policy : Policy) (maxRaw : ℚ) : Assignment :=
  { Assignment.zero with
    deviceID := dev.id
    stream := best.id
    expectedYield := best.yield
    switchedFromID :=
      if previous.stream ≠ "" ∧ previous.stream ≠ best.id then previous.stream else ""
    reason := "best yield under policy " ++ policy.string
    foregoneSatsPerSec := maxRaw - best.yield }

/-- Leave the device idle. -/
def assignIdle (dev : DeviceRef) (minYield : ℚ) (belowFloor : Bool) : Assignment :=
  { Assignment.zero with
    deviceID := dev.id
    reason :=
      if belowFloor then
        "all compatible streams below minimum yield floor " ++ fmtGeneral 4 minYield ++ " sats/s"
      else "no compatible stream accepting non-zero work" }

def chooseForDevice (dev : DeviceRef) (streams : List Stream) (previous : Assignment)
    (policy : Policy) (hysteresis minYield : ℚ) : Assignment :=
  match candidateStreams dev minYield streams with
  | ([], belowFloor) => assignIdle dev minYield belowFloor
  | (first :: rest, _) =>
      let maxRaw := maxYield first rest
      match sortCandidates policy (first :: rest) with
      -- Sorting loses nothing, so there is a best candidate.
      | [] => Assignment.zero
      | best :: others =>
          if previous.stream = "" then assignBest dev best previous policy maxRaw
          else
            (incumbentHold dev (best :: others) best previous policy hysteresis maxRaw).getD
              (assignBest dev best previous policy maxRaw)

/-! ## All devices -/

structure Input where
  devices : List DeviceRef
  streams : List Stream
  previous : Option Allocation
  policy : Policy
  hysteresisMargin : ℚ
  minYieldSatsPerSec : ℚ

/-- Why an input is rejected. -/
inductive DecideError where
  /-- `"arbitration: invalid Policy %v"` -/
  | invalidPolicy (p : Policy)
  /-- `"arbitration: HysteresisMargin must be non-negative and finite"` -/
  | hysteresisMargin
  /-- `"arbitration: MinYieldSatsPerSec must be non-negative and finite"` -/
  | minYieldSatsPerSec
  /-- `"arbitration: duplicate device ID %q"` -/
  | duplicateDevice (id : String)
  deriving DecidableEq, Repr

/-- The first device ID that has occurred before. -/
def duplicateID (seen : List String) : List DeviceRef → Option String
  | [] => none
  | d :: devices => if d.id ∈ seen then some d.id else duplicateID (d.id :: seen) devices

/-- The devices by ascending ID. -/
def sortDevices (devices : List DeviceRef) : List DeviceRef :=
  devices.insertionSort fun a b => a.id ≤ b.id

/-- The previous assignments by device; of several the last one counts. -/
def previousByDevice (assignments : List Assignment) : GoMap String Assignment :=
  assignments.foldl (fun m a => m.insert a.deviceID a) ∅

/-- The map of previous assignments. -/
def Input.prev (input : Input) : GoMap String Assignment :=
  match input.previous with
  | none => ∅
  | some alloc => previousByDevice alloc.assignments

/-- The device's previous assignment, or the zero value. -/
def Input.previousFor (input : Input) (dev : DeviceRef) : Assignment :=
  (input.prev.lookup dev.id).getD Assignment.zero

/-- The decision for a device. A device that was idle before and still is
gets marked, so that the log line is not repeated. -/
def Input.assignmentFor (input : Input) (dev : DeviceRef) : Assignment :=
  let p := input.previousFor dev
  let a := chooseForDevice dev input.streams p input.policy input.hysteresisMargin
    input.minYieldSatsPerSec
  if a.idle ∧ (input.prev.lookup dev.id).isSome ∧ p.stream = "" then { a with heldIdle := true }
  else a

/-- Append an assignment and count it. -/
def Allocation.add (alloc : Allocation) (a : Assignment) : Allocation :=
  { alloc with
    assignments := alloc.assignments ++ [a]
    totalYield := alloc.totalYield + a.expectedYield
    skippedDevice := if a.idle then alloc.skippedDevice + 1 else alloc.skippedDevice }

/-- The loop over the sorted devices. -/
def Input.allocate (input : Input) : Allocation :=
  (sortDevices input.devices).foldl (fun alloc dev => alloc.add (input.assignmentFor dev))
    { assignments := [], totalYield := 0, policy := input.policy, skippedDevice := 0 }

/-- `Decide`. -/
def Input.decide (input : Input) : Except DecideError Allocation :=
  if input.policy.valid = false then .error (.invalidPolicy input.policy)
  else if input.hysteresisMargin < 0 then .error .hysteresisMargin
  else if input.minYieldSatsPerSec < 0 then .error .minYieldSatsPerSec
  else
    match duplicateID [] input.devices with
    | some id => .error (.duplicateDevice id)
    | none => .ok input.allocate

/-! ## What the loops compute -/

/-- The stream is an option for the device: it accepts the family and pays
something that clears the floor. -/
def Stream.Serves (s : Stream) (dev : DeviceRef) (minYield : ℚ) : Prop :=
  s.accepts dev.family = true ∧ 0 < s.effectiveFor dev ∧ minYield ≤ s.effectiveFor dev

instance (s : Stream) (dev : DeviceRef) (minYield : ℚ) : Decidable (s.Serves dev minYield) :=
  inferInstanceAs (Decidable (_ ∧ _ ∧ _))

/-- The stream would pay the device something, but less than the floor. -/
def Stream.BelowFloor (s : Stream) (dev : DeviceRef) (minYield : ℚ) : Prop :=
  s.accepts dev.family = true ∧ 0 < s.effectiveFor dev ∧ s.effectiveFor dev < minYield

instance (s : Stream) (dev : DeviceRef) (minYield : ℚ) : Decidable (s.BelowFloor dev minYield) :=
  inferInstanceAs (Decidable (_ ∧ _ ∧ _))

/-- The stream as a candidate for the device. -/
def Stream.candidate (dev : DeviceRef) (s : Stream) : StreamCandidate :=
  { stream := s, yield := s.effectiveFor dev }

section

variable {dev : DeviceRef} {minYield : ℚ} {streams streams' : List Stream}

theorem candidateStreams_eq (dev : DeviceRef) (minYield : ℚ) (streams : List Stream) :
    candidateStreams dev minYield streams =
      ((streams.filter fun s => s.Serves dev minYield).map (Stream.candidate dev),
       streams.any fun s => s.BelowFloor dev minYield) := by
  induction streams with
  | nil => rfl
  | cons s streams ih =>
    unfold candidateStreams
    rw [ih]
    by_cases haccepts : s.accepts dev.family = true
    · by_cases hpays : 0 < s.effectiveFor dev
      · by_cases hfloor : minYield ≤ s.effectiveFor dev
        · simp [haccepts, hpays, hfloor, hpays.not_ge, hfloor.not_gt, Stream.Serves,
            Stream.BelowFloor, Stream.candidate]
        · simp [haccepts, hpays, hfloor, not_le.mp hfloor, Stream.Serves, Stream.BelowFloor]
      · simp [haccepts, hpays, not_lt.mp hpays, Stream.Serves, Stream.BelowFloor]
    · simp [haccepts, Stream.Serves, Stream.BelowFloor]

theorem mem_candidateStreams {c : StreamCandidate} : c ∈ (candidateStreams dev minYield streams).1 ↔
      ∃ s ∈ streams, s.Serves dev minYield ∧ s.candidate dev = c := by
  rw [candidateStreams_eq]
  simp [and_assoc]

/-- Streams with different ids are candidates with different ids. -/
theorem candidateStreams_ids_nodup (dev : DeviceRef) (minYield : ℚ)
    (hids : (streams.map Stream.id).Nodup) :
    ((candidateStreams dev minYield streams).1.map StreamCandidate.id).Nodup := by
  rw [candidateStreams_eq, map_map]
  exact hids.sublist (filter_sublist.map Stream.id)

theorem candidateStreams_perm (dev : DeviceRef) (minYield : ℚ) (hperm : streams.Perm streams') :
    (candidateStreams dev minYield streams).1.Perm (candidateStreams dev minYield streams').1 ∧
      (candidateStreams dev minYield streams).2 = (candidateStreams dev minYield streams').2 := by
  rw [candidateStreams_eq, candidateStreams_eq]
  refine ⟨(hperm.filter _).map _, ?_⟩
  rw [Bool.eq_iff_iff, any_eq_true, any_eq_true]
  exact exists_congr fun s => and_congr_left' hperm.mem_iff

end

section

variable {first : StreamCandidate} {rest : List StreamCandidate}

/-- The running maximum is the yield of a candidate, and no candidate yields
more. -/
theorem maxYield_spec (first : StreamCandidate) (rest : List StreamCandidate) :
    (∃ c ∈ first :: rest, c.yield = maxYield first rest) ∧
      ∀ c ∈ first :: rest, c.yield ≤ maxYield first rest := by
  unfold maxYield
  -- The accumulator is the yield of a candidate seen so far.
  induction rest generalizing first with
  | nil => simp
  | cons c rest ih =>
    rcases le_total first.yield c.yield with hle | hle
    · obtain ⟨⟨top, htop, heq⟩, hmax⟩ := ih c
      rw [foldl_cons, max_eq_right hle]
      refine ⟨⟨top, mem_cons_of_mem _ htop, heq⟩, ?_⟩
      intro c' hc'
      rcases mem_cons.mp hc' with rfl | hmem
      · exact hle.trans (hmax c mem_cons_self)
      · exact hmax c' hmem
    · obtain ⟨⟨top, htop, heq⟩, hmax⟩ := ih first
      rw [foldl_cons, max_eq_left hle]
      refine ⟨⟨top, by grind, heq⟩, ?_⟩
      intro c' hc'
      rcases mem_cons.mp hc' with rfl | hmem
      · exact hmax c' mem_cons_self
      · rcases mem_cons.mp hmem with rfl | hmem
        · exact hle.trans (hmax first mem_cons_self)
        · exact hmax c' (mem_cons_of_mem _ hmem)

theorem maxYield_eq_of_perm {first' : StreamCandidate} {rest' : List StreamCandidate}
    (hperm : (first :: rest).Perm (first' :: rest')) :
    maxYield first rest = maxYield first' rest' := by
  obtain ⟨⟨top, htop, heq⟩, hmax⟩ := maxYield_spec first rest
  obtain ⟨⟨top', htop', heq'⟩, hmax'⟩ := maxYield_spec first' rest'
  apply le_antisymm
  · rw [← heq]
    exact hmax' top (hperm.mem_iff.mp htop)
  · rw [← heq']
    exact hmax top' (hperm.mem_iff.mpr htop')

end

/-- The choice as a function of the ranked candidates. -/
def chooseRanked (dev : DeviceRef) (belowFloor : Bool) (previous : Assignment) (policy : Policy)
    (hysteresis minYield : ℚ) : List StreamCandidate → Assignment
  | [] => assignIdle dev minYield belowFloor
  | best :: others =>
      let maxRaw := maxYield best others
      if previous.stream = "" then assignBest dev best previous policy maxRaw
      else
        (incumbentHold dev (best :: others) best previous policy hysteresis maxRaw).getD
          (assignBest dev best previous policy maxRaw)

/-- Only the ranking of the candidates matters, not their order. -/
theorem chooseForDevice_eq (dev : DeviceRef) (streams : List Stream) (previous : Assignment)
    (policy : Policy) (hysteresis minYield : ℚ) :
    chooseForDevice dev streams previous policy hysteresis minYield =
      chooseRanked dev (candidateStreams dev minYield streams).2 previous policy hysteresis minYield
        (sortCandidates policy (candidateStreams dev minYield streams).1) := by
  unfold chooseForDevice
  split
  · next belowFloor hcands =>
    rw [hcands]
    rfl
  · next first rest belowFloor hcands =>
    rw [hcands]
    have hperm : (sortCandidates policy (first :: rest)).Perm (first :: rest) :=
      Ranking.rank_perm _ _ _
    cases hsorted : sortCandidates policy (first :: rest) with
    | nil =>
      rw [hsorted] at hperm
      exact absurd hperm.symm.eq_nil (cons_ne_nil _ _)
    | cons best others =>
      rw [hsorted] at hperm
      simp only [chooseRanked, maxYield_eq_of_perm hperm]

section

variable {input : Input} {alloc : Allocation}

theorem duplicateID_eq_none {seen : List String} {devices : List DeviceRef} :
    duplicateID seen devices = none ↔
      (devices.map DeviceRef.id).Nodup ∧ ∀ dev ∈ devices, dev.id ∉ seen := by
  induction devices generalizing seen with
  | nil => simp [duplicateID]
  | cons d devices ih =>
    unfold duplicateID
    by_cases hseen : d.id ∈ seen
    · simp [hseen]
    · rw [if_neg hseen, ih]
      simp only [map_cons, nodup_cons, mem_cons, mem_map]
      grind

/-- The loop assigns the devices one after the other. -/
theorem allocate_assignments (input : Input) :
    input.allocate.assignments = (sortDevices input.devices).map input.assignmentFor := by
  unfold Input.allocate
  suffices h : ∀ (devices : List DeviceRef) (alloc : Allocation),
      (devices.foldl (fun alloc dev => alloc.add (input.assignmentFor dev)) alloc).assignments =
        alloc.assignments ++ devices.map input.assignmentFor from h _ _
  intro devices
  induction devices with
  | nil => simp
  | cons dev devices ih =>
    intro alloc
    rw [foldl_cons, ih]
    simp [Allocation.add]

/-- What it means that an input is accepted. -/
theorem Input.decide_eq_ok : input.decide = .ok alloc ↔
    input.policy.valid = true ∧ 0 ≤ input.hysteresisMargin ∧ 0 ≤ input.minYieldSatsPerSec ∧
      (input.devices.map DeviceRef.id).Nodup ∧ input.allocate = alloc := by
  have hdup : duplicateID [] input.devices = none ↔ (input.devices.map DeviceRef.id).Nodup := by
    simp [duplicateID_eq_none]
  unfold Input.decide
  by_cases hpolicy : input.policy.valid = true
  · by_cases hmargin : input.hysteresisMargin < 0
    · simp [hpolicy, hmargin]
    · by_cases hfloor : input.minYieldSatsPerSec < 0
      · simp [hpolicy, hmargin, hfloor]
      · cases hid : duplicateID [] input.devices with
        | none => simp [hpolicy, hmargin, hfloor, not_lt.mp hmargin, not_lt.mp hfloor, hdup.mp hid]
        | some id =>
          have hnot : ¬ (input.devices.map DeviceRef.id).Nodup := by
            rw [← hdup, hid]
            simp
          simp [hpolicy, hmargin, hfloor, hnot]
  · simp [hpolicy]

end

end Otedama.Arbitration
