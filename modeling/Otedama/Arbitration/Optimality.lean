import Otedama.Arbitration.Decide

/-! # Decisions are optimal up to hysteresis

`Correct` says what a decision for a device has to be, in terms of the
streams that are an option for it and their scores, without reference to
how it is computed. `decide_correct` proves it for every decision. -/

namespace Otedama.Arbitration

open List

/-! ## Specification -/

/-- The stream is an option for the device. -/
def Input.Candidate (input : Input) (dev : DeviceRef) (s : Stream) : Prop :=
  s ∈ input.streams ∧ s.Serves dev input.minYieldSatsPerSec

/-- The score of a stream for a device. -/
def Input.score (input : Input) (dev : DeviceRef) (s : Stream) : ℚ :=
  policyScore s (s.effectiveFor dev) input.policy

/-- The device works for the stream `s`, and that is the right one; `prev` is
the stream of the previous cycle, if any. -/
structure AssignedTo (input : Input) (dev : DeviceRef) (prev : String) (a : Assignment)
    (s : Stream) : Prop where
  candidate : input.Candidate dev s
  stream : a.stream = s.id
  expectedYield : a.expectedYield = s.effectiveFor dev
  /-- What is forgone is the difference to the best paying option. -/
  foregone : ∃ top, input.Candidate dev top ∧
    (∀ s', input.Candidate dev s' → s'.effectiveFor dev ≤ top.effectiveFor dev) ∧
    a.foregoneSatsPerSec = top.effectiveFor dev - a.expectedYield
  foregone_nonneg : 0 ≤ a.foregoneSatsPerSec
  nearOptimal : ∀ s', input.Candidate dev s' →
    input.score dev s' ≤ input.score dev s * (1 + input.hysteresisMargin)
  /-- A switch is to the best option, and is worth more than the margin. -/
  switch : prev ≠ "" → a.stream ≠ prev →
    (∀ s', input.Candidate dev s' → input.score dev s' ≤ input.score dev s) ∧
    ∀ s', input.Candidate dev s' → s'.id = prev →
      input.score dev s' * (1 + input.hysteresisMargin) < input.score dev s

/-- The decision for a device is right. -/
structure Correct (input : Input) (dev : DeviceRef) (prev : String) (a : Assignment) :
    Prop where
  idle_iff : a.stream = "" ↔ ∀ s, ¬ input.Candidate dev s
  assigned : a.stream ≠ "" → ∃ s, AssignedTo input dev prev a s
  switchedFromID : a.switchedFromID =
    if prev ≠ "" ∧ a.stream ≠ "" ∧ a.stream ≠ prev then prev else ""
  /-- Held: kept although another option ranks before it. -/
  held_iff : a.held = true ↔ prev ≠ "" ∧ a.stream = prev ∧
    ∃ s s', input.Candidate dev s ∧ s.id = prev ∧ input.Candidate dev s' ∧ s'.id ≠ prev ∧
      Ranking.Before Stream.id (input.score dev) s' s

/-! ## The choice among the candidates -/

/-- The assignment `a` is that of the candidate `c`, which hysteresis chooses
when the previous stream is `prev`. -/
structure Picked (policy : Policy) (hysteresis : ℚ) (cands : List StreamCandidate)
    (prev : String) (a : Assignment) (c : StreamCandidate) : Prop where
  chosen : Ranking.Chosen StreamCandidate.id (StreamCandidate.score policy) cands hysteresis prev c
  stream : a.stream = c.id
  expectedYield : a.expectedYield = c.yield
  foregone : ∃ top ∈ cands, (∀ c' ∈ cands, c'.yield ≤ top.yield) ∧
    a.foregoneSatsPerSec = top.yield - c.yield
  switchedFromID : a.switchedFromID = if prev ≠ "" ∧ prev ≠ c.id then prev else ""
  held : a.held = true ↔ c.id = prev ∧ ∃ c' ∈ cands, c'.id ≠ c.id ∧
    Ranking.Before StreamCandidate.id (StreamCandidate.score policy) c' c

section

variable {dev : DeviceRef} {cands : List StreamCandidate} {best : StreamCandidate}
  {previous : Assignment} {policy : Policy} {hysteresis : ℚ}

/-- The incumbent is held, or beaten by more than the margin, or gone. -/
theorem incumbentHold_cases (dev : DeviceRef) (best : StreamCandidate) (previous : Assignment)
    (policy : Policy) (hysteresis maxRaw : ℚ) (hids : (cands.map StreamCandidate.id).Nodup) :
    (∃ c ∈ cands, c.id = previous.stream ∧ best.score policy ≤ c.score policy * (1 + hysteresis) ∧
      incumbentHold dev cands best previous policy hysteresis maxRaw =
        some (assignHeld dev best c policy hysteresis maxRaw)) ∨
    (incumbentHold dev cands best previous policy hysteresis maxRaw = none ∧
      ∀ c ∈ cands, c.id = previous.stream →
        c.score policy * (1 + hysteresis) < best.score policy) := by
  unfold incumbentHold
  cases hfind : cands.find? fun c => c.id == previous.stream with
  | none =>
    right
    refine ⟨rfl, fun c hc hid => ?_⟩
    have hnot := find?_eq_none.mp hfind c hc
    exact absurd hid (by simpa using hnot)
  | some c =>
    have hmem : c ∈ cands := mem_of_find?_eq_some hfind
    have hid : c.id = previous.stream := by simpa using find?_some hfind
    by_cases hbeaten : c.score policy * (1 + hysteresis) < best.score policy
    · right
      refine ⟨by simp [hbeaten], fun c' hc' hid' => ?_⟩
      obtain rfl : c' = c := inj_on_of_nodup_map hids hc' hmem (hid'.trans hid.symm)
      exact hbeaten
    · left
      exact ⟨c, hmem, hid, not_lt.mp hbeaten, by simp [hbeaten]⟩

theorem picked_assignHeld {others : List StreamCandidate} {c : StreamCandidate}
    (hids : (cands.map StreamCandidate.id).Nodup)
    (hsorted : sortCandidates policy cands = best :: others) (hmem : c ∈ cands)
    (hid : c.id = previous.stream)
    (hstays : best.score policy ≤ c.score policy * (1 + hysteresis)) :
    Picked policy hysteresis cands previous.stream
      (assignHeld dev best c policy hysteresis (maxYield best others)) c := by
  obtain ⟨hbest, hbefore⟩ := Ranking.before_of_rank_eq_cons hsorted
  obtain ⟨⟨top, htop, heq⟩, hmax⟩ := maxYield_spec best others
  have hmemSorted : ∀ c', c' ∈ best :: others ↔ c' ∈ cands := fun c' => by
    rw [← hsorted]
    exact Ranking.mem_rank
  refine ⟨.kept hmem hid ?_, rfl, rfl, ?_, ?_, ?_⟩
  · intro c' hc'
    exact (hbefore c' hc').score_le.trans hstays
  · refine ⟨top, (hmemSorted top).mp htop, fun c' hc' => ?_, by rw [heq]; rfl⟩
    rw [heq]
    exact hmax c' ((hmemSorted c').mpr hc')
  · simp [assignHeld, Assignment.zero, hid]
  · show (best.id != c.id) = true ↔ _
    rw [bne_iff_ne]
    constructor
    · intro hne
      exact ⟨hid, best, hbest, hne, hbefore c hmem⟩
    · rintro ⟨-, c', hc', hne, hc'c⟩ hsame
      -- The best candidate would be `c` itself, and go before `c'`.
      obtain rfl : best = c := inj_on_of_nodup_map hids hbest hmem hsame
      exact hne (hc'c.key_eq (hbefore c' hc'))

theorem picked_assignBest {others : List StreamCandidate}
    (hsorted : sortCandidates policy cands = best :: others)
    (hbeaten : ∀ c ∈ cands, c.id = previous.stream →
      c.score policy * (1 + hysteresis) < best.score policy) :
    Picked policy hysteresis cands previous.stream
      (assignBest dev best previous policy (maxYield best others)) best := by
  obtain ⟨hbest, hbefore⟩ := Ranking.before_of_rank_eq_cons hsorted
  obtain ⟨⟨top, htop, heq⟩, hmax⟩ := maxYield_spec best others
  have hmemSorted : ∀ c', c' ∈ best :: others ↔ c' ∈ cands := fun c' => by
    rw [← hsorted]
    exact Ranking.mem_rank
  refine ⟨.best hbest hbefore ?_, rfl, rfl, ?_, rfl, ?_⟩
  · intro inc hinc hid hdefends
    exact absurd (hdefends best hbest) (not_le.mpr (hbeaten inc hinc hid))
  · refine ⟨top, (hmemSorted top).mp htop, fun c' hc' => ?_, by rw [heq]; rfl⟩
    rw [heq]
    exact hmax c' ((hmemSorted c').mpr hc')
  · show false = true ↔ _
    refine iff_of_false (by simp) ?_
    rintro ⟨-, c', hc', hne, hc'b⟩
    exact hne (hc'b.key_eq (hbefore c' hc'))

end

section

variable {dev : DeviceRef} {streams : List Stream} {previous : Assignment} {policy : Policy}
  {hysteresis minYield : ℚ}

/-- A device without options stays idle. -/
theorem chooseForDevice_idle (hcands : (candidateStreams dev minYield streams).1 = []) :
    chooseForDevice dev streams previous policy hysteresis minYield =
      assignIdle dev minYield (candidateStreams dev minYield streams).2 := by
  rw [chooseForDevice_eq, hcands]
  rfl

/-- A device with options gets the one that hysteresis chooses. -/
theorem chooseForDevice_picked (previous : Assignment) (policy : Policy) (hysteresis : ℚ)
    (hids : (streams.map Stream.id).Nodup) (hnamed : ∀ s ∈ streams, s.id ≠ "")
    (hcands : (candidateStreams dev minYield streams).1 ≠ []) :
    ∃ c, Picked policy hysteresis (candidateStreams dev minYield streams).1 previous.stream
      (chooseForDevice dev streams previous policy hysteresis minYield) c := by
  rw [chooseForDevice_eq]
  have hids' := candidateStreams_ids_nodup dev minYield hids
  have hnamed' : ∀ c ∈ (candidateStreams dev minYield streams).1, c.id ≠ "" := by
    intro c hc
    obtain ⟨s, hs, -, rfl⟩ := mem_candidateStreams.mp hc
    exact hnamed s hs
  generalize (candidateStreams dev minYield streams).1 = cands at hids' hnamed' hcands ⊢
  cases hsorted : sortCandidates policy cands with
  | nil => exact absurd (Ranking.rank_eq_nil.mp hsorted) hcands
  | cons best others =>
    simp only [chooseRanked]
    by_cases hprev : previous.stream = ""
    · rw [if_pos hprev]
      refine ⟨best, picked_assignBest hsorted fun c hc hid => ?_⟩
      exact absurd (hid.trans hprev) (hnamed' c hc)
    · rw [if_neg hprev]
      have hperm : (best :: others).Perm cands := by
        rw [← hsorted]
        exact Ranking.rank_perm _ _ _
      have hids'' : ((best :: others).map StreamCandidate.id).Nodup :=
        (hperm.map StreamCandidate.id).nodup_iff.mpr hids'
      rcases incumbentHold_cases dev best previous policy hysteresis (maxYield best others) hids''
        with ⟨c, hc, hid, hstays, heq⟩ | ⟨heq, hbeaten⟩
      · rw [heq]
        exact ⟨c, picked_assignHeld hids' hsorted (hperm.mem_iff.mp hc) hid hstays⟩
      · rw [heq]
        exact ⟨best, picked_assignBest hsorted fun c hc => hbeaten c (hperm.mem_iff.mpr hc)⟩

end

/-! ## Every decision is right -/

theorem policyScore_nonneg {s : Stream} {yield : ℚ} (hyield : 0 ≤ yield)
    (hprivacy : 0 ≤ s.privacyRating) (henvironment : 0 ≤ s.environmentalRating)
    (policy : Policy) : 0 ≤ policyScore s yield policy := by
  have hprivacy' : (0 : ℚ) ≤ s.privacyRating := by exact_mod_cast hprivacy
  have henvironment' : (0 : ℚ) ≤ s.environmentalRating := by exact_mod_cast henvironment
  unfold policyScore
  cases policy with
  | stackBTC =>
    dsimp only
    split
    · exact mul_nonneg hyield (by norm_num [btcStackBonus])
    · exact hyield
  | maximizePrivacy | environmentFriendly =>
    apply mul_nonneg hyield
    norm_num [ratingBonusPerPoint]
    linarith
  | maximizeEarnings => exact hyield
  | unknown n => exact hyield

/-- The streams have different, non-empty ids, and ratings between 0 and 10. -/
structure WellFormed (streams : List Stream) : Prop where
  ids : (streams.map Stream.id).Nodup
  named : ∀ s ∈ streams, s.id ≠ ""
  privacyRating : ∀ s ∈ streams, 0 ≤ s.privacyRating ∧ s.privacyRating ≤ 10
  environmentalRating : ∀ s ∈ streams, 0 ≤ s.environmentalRating ∧ s.environmentalRating ≤ 10

section

variable {input : Input} {dev : DeviceRef}

/-- The candidates of `candidateStreams` are the options. -/
theorem Input.candidate_iff {s : Stream} : input.Candidate dev s ↔
    s.candidate dev ∈ (candidateStreams dev input.minYieldSatsPerSec input.streams).1 := by
  rw [mem_candidateStreams]
  constructor
  · rintro ⟨hs, hserves⟩
    exact ⟨s, hs, hserves, rfl⟩
  · rintro ⟨s', hs', hserves, heq⟩
    obtain rfl : s' = s := congrArg StreamCandidate.stream heq
    exact ⟨hs', hserves⟩

theorem Input.exists_candidate {c : StreamCandidate}
    (hc : c ∈ (candidateStreams dev input.minYieldSatsPerSec input.streams).1) :
    ∃ s, input.Candidate dev s ∧ s.candidate dev = c := by
  obtain ⟨s, hs, hserves, rfl⟩ := mem_candidateStreams.mp hc
  exact ⟨s, ⟨hs, hserves⟩, rfl⟩

theorem WellFormed.score_nonneg (hwf : WellFormed input.streams) {c : StreamCandidate}
    (hc : c ∈ (candidateStreams dev input.minYieldSatsPerSec input.streams).1) :
    0 ≤ c.score input.policy := by
  obtain ⟨s, ⟨hs, -, hpays, -⟩, rfl⟩ := Input.exists_candidate hc
  exact policyScore_nonneg hpays.le (hwf.privacyRating s hs).1 (hwf.environmentalRating s hs).1 _

/-- The mark for devices that stay idle is all that is added to the choice. -/
theorem Input.assignmentFor_eq (input : Input) (dev : DeviceRef) :
    ∃ heldIdle, input.assignmentFor dev =
      { chooseForDevice dev input.streams (input.previousFor dev) input.policy
          input.hysteresisMargin input.minYieldSatsPerSec with heldIdle := heldIdle } := by
  unfold Input.assignmentFor
  dsimp only
  split
  · exact ⟨true, rfl⟩
  · exact ⟨_, rfl⟩

/-- An idle decision is right when there are no options. -/
theorem correct_of_idle {prev : String} {a : Assignment}
    (hnone : ∀ s, ¬ input.Candidate dev s) (hstream : a.stream = "")
    (hswitched : a.switchedFromID = "") (hheld : a.held = false) : Correct input dev prev a where
  idle_iff := iff_of_true hstream hnone
  assigned := fun hne => absurd hstream hne
  switchedFromID := by simp [hstream, hswitched]
  held_iff := by
    rw [hheld]
    refine iff_of_false (by simp) ?_
    rintro ⟨-, -, s, s', hs, -⟩
    exact hnone s hs

/-- The assignment of the candidate that hysteresis chooses is right. -/
theorem correct_of_picked (hwf : WellFormed input.streams) (hmargin : 0 ≤ input.hysteresisMargin)
    {prev : String} {a : Assignment} {c : StreamCandidate}
    (h : Picked input.policy input.hysteresisMargin
      (candidateStreams dev input.minYieldSatsPerSec input.streams).1 prev a c) :
    Correct input dev prev a := by
  obtain ⟨s, hs, rfl⟩ := Input.exists_candidate h.chosen.mem
  have hstream : a.stream = s.id := h.stream
  have hyield : a.expectedYield = s.effectiveFor dev := h.expectedYield
  have hnamed : a.stream ≠ "" := by
    rw [hstream]
    exact hwf.named s hs.1
  have hdefends := h.chosen.defends hmargin fun c hc => hwf.score_nonneg hc
  refine ⟨iff_of_false hnamed fun hnone => hnone s hs, fun _ => ⟨s, ?_⟩, ?_, ?_⟩
  · obtain ⟨top, htop, hmax, hforegone⟩ := h.foregone
    obtain ⟨t, ht, rfl⟩ := Input.exists_candidate htop
    have hforegone' : a.foregoneSatsPerSec = t.effectiveFor dev - s.effectiveFor dev := hforegone
    refine ⟨hs, hstream, hyield, ⟨t, ht, ?_, ?_⟩, ?_, ?_, ?_⟩
    · intro s' hs'
      exact hmax (s'.candidate dev) (Input.candidate_iff.mp hs')
    · rw [hforegone', hyield]
    · rw [hforegone', sub_nonneg]
      exact hmax (s.candidate dev) (Input.candidate_iff.mp hs)
    · intro s' hs'
      exact hdefends (s'.candidate dev) (Input.candidate_iff.mp hs')
    · intro hprev hne
      rw [hstream] at hne
      obtain ⟨hbest, hbeats⟩ := h.chosen.of_ne hne
      refine ⟨fun s' hs' => ?_, fun s' hs' hid => ?_⟩
      · exact hbest (s'.candidate dev) (Input.candidate_iff.mp hs')
      · exact hbeats (s'.candidate dev) (Input.candidate_iff.mp hs') hid
  · rw [h.switchedFromID, hstream]
    have hiff : prev ≠ "" ∧ prev ≠ s.id ↔ prev ≠ "" ∧ s.id ≠ "" ∧ s.id ≠ prev := by
      simp [hwf.named s hs.1, ne_comm]
    exact if_congr hiff rfl rfl
  · rw [h.held, hstream]
    constructor
    · rintro ⟨hid, c', hc', hne, hbefore⟩
      obtain ⟨s', hs', rfl⟩ := Input.exists_candidate hc'
      have hid' : s.id = prev := hid
      subst hid'
      exact ⟨hwf.named s hs.1, rfl, s, s', hs, rfl, hs', hne, hbefore⟩
    · rintro ⟨-, rfl, t, s', ht, hid, hs', hne, hbefore⟩
      obtain rfl : t = s := inj_on_of_nodup_map hwf.ids ht.1 hs.1 hid
      exact ⟨rfl, s'.candidate dev, Input.candidate_iff.mp hs', hne, hbefore⟩

theorem assignmentFor_correct (hwf : WellFormed input.streams)
    (hmargin : 0 ≤ input.hysteresisMargin) (dev : DeviceRef) :
    Correct input dev (input.previousFor dev).stream (input.assignmentFor dev) := by
  obtain ⟨heldIdle, heq⟩ := input.assignmentFor_eq dev
  rw [heq]
  by_cases hcands : (candidateStreams dev input.minYieldSatsPerSec input.streams).1 = []
  · rw [chooseForDevice_idle hcands]
    refine correct_of_idle (fun s hs => ?_) rfl rfl rfl
    have hmem := Input.candidate_iff.mp hs
    rw [hcands] at hmem
    cases hmem
  · obtain ⟨c, h⟩ := chooseForDevice_picked (input.previousFor dev) input.policy
      input.hysteresisMargin hwf.ids hwf.named hcands
    exact correct_of_picked hwf hmargin ⟨h.chosen, h.stream, h.expectedYield, h.foregone,
      h.switchedFromID, h.held⟩

end

theorem assignmentFor_deviceID (input : Input) (dev : DeviceRef) :
    (input.assignmentFor dev).deviceID = dev.id := by
  obtain ⟨heldIdle, heq⟩ := input.assignmentFor_eq dev
  rw [heq]
  show (chooseForDevice _ _ _ _ _ _).deviceID = dev.id
  rw [chooseForDevice_eq]
  unfold chooseRanked
  split
  · rfl
  · next best others hsorted =>
    dsimp only
    split
    · rfl
    · unfold incumbentHold
      split
      · rfl
      · split <;> rfl

instance : Std.Total fun a b : DeviceRef => a.id ≤ b.id := ⟨fun a b => le_total a.id b.id⟩

instance : IsTrans DeviceRef fun a b => a.id ≤ b.id := ⟨fun _ _ _ hab hbc => hab.trans hbc⟩

theorem sortDevices_perm (devices : List DeviceRef) : (sortDevices devices).Perm devices :=
  perm_insertionSort _ devices

theorem sortDevices_pairwise (devices : List DeviceRef) :
    (sortDevices devices).Pairwise fun a b => a.id ≤ b.id :=
  pairwise_insertionSort _ devices

/-- Devices with different ids come out in strictly ascending order. -/
theorem sortDevices_ids_lt {devices : List DeviceRef} (hids : (devices.map DeviceRef.id).Nodup) :
    ((sortDevices devices).map DeviceRef.id).Pairwise (· < ·) := by
  have hnodup : ((sortDevices devices).map DeviceRef.id).Pairwise (· ≠ ·) :=
    ((sortDevices_perm devices).map DeviceRef.id).nodup_iff.mpr hids
  have hle : ((sortDevices devices).map DeviceRef.id).Pairwise (· ≤ ·) :=
    pairwise_map.mpr (sortDevices_pairwise devices)
  exact hle.imp₂ (fun _ _ hab hne => lt_of_le_of_ne hab hne) hnodup

theorem mem_allocate {input : Input} {a : Assignment} :
    a ∈ input.allocate.assignments ↔ ∃ dev ∈ input.devices, input.assignmentFor dev = a := by
  rw [allocate_assignments, mem_map]
  exact exists_congr fun dev => and_congr_left' (sortDevices_perm _).mem_iff

theorem allocate_ids (input : Input) : input.allocate.assignments.map Assignment.deviceID =
    (sortDevices input.devices).map DeviceRef.id := by
  rw [allocate_assignments, map_map]
  exact map_congr_left fun dev _ => assignmentFor_deviceID input dev

theorem allocate_ids_nodup {input : Input} (hids : (input.devices.map DeviceRef.id).Nodup) :
    (input.allocate.assignments.map Assignment.deviceID).Nodup := by
  rw [allocate_ids]
  exact ((sortDevices_perm _).map _).nodup_iff.mpr hids

/-- **Decisions are optimal up to hysteresis.**  Every accepted input gets
exactly one assignment for each device, in ascending order of device id,
and every assignment is `Correct`. -/
theorem decide_correct (input : Input) (alloc : Allocation) (hok : input.decide = .ok alloc)
    (hwf : WellFormed input.streams) :
    (alloc.assignments.map Assignment.deviceID).Perm (input.devices.map DeviceRef.id) ∧
      (alloc.assignments.map Assignment.deviceID).Pairwise (· < ·) ∧
      ∀ dev ∈ input.devices, ∃ a ∈ alloc.assignments, a.deviceID = dev.id ∧
        Correct input dev (input.previousFor dev).stream a := by
  obtain ⟨-, hmargin, -, hdevices, rfl⟩ := Input.decide_eq_ok.mp hok
  rw [allocate_ids]
  refine ⟨(sortDevices_perm _).map _, sortDevices_ids_lt hdevices, fun dev hdev => ?_⟩
  exact ⟨input.assignmentFor dev, mem_allocate.mpr ⟨dev, hdev, rfl⟩,
    assignmentFor_deviceID input dev, assignmentFor_correct hwf hmargin dev⟩

/-- A stream that accepts GPUs and pays `sats` for each. -/
def sampleStream (id : String) (sats : ℚ) : Stream where
  id := id
  acceptsFamilies := [.gpu]
  yieldPerDevice := ∅
  defaultYield := { satsPerSecond := sats, confidence := 1 }
  privacyRating := 5
  environmentalRating := 5
  isBitcoinMining := false

/-- One GPU that was on `prev`, two streams, and a margin of 5%. -/
def sampleInput (prev : String) : Input where
  devices := [{ id := "gpu0", family := .gpu }]
  streams := [sampleStream "ai.b" 102, sampleStream "mining.a" 100]
  previous := some
    { assignments := [{ Assignment.zero with deviceID := "gpu0", stream := prev }]
      totalYield := 0, policy := .maximizeEarnings, skippedDevice := 0 }
  policy := .maximizePrivacy
  hysteresisMargin := 5 / 100
  minYieldSatsPerSec := 1

theorem sampleInput_decide (prev : String) :
    (sampleInput prev).decide = .ok (sampleInput prev).allocate :=
  Input.decide_eq_ok.mpr ⟨rfl, by norm_num [sampleInput], by norm_num [sampleInput],
    by simp [sampleInput], rfl⟩

theorem sampleInput_wellFormed (prev : String) : WellFormed (sampleInput prev).streams where
  ids := by simp [sampleInput, sampleStream]
  named := by simp [sampleInput, sampleStream]
  privacyRating := by simp [sampleInput, sampleStream]
  environmentalRating := by simp [sampleInput, sampleStream]

/-- The gain of 2% does not justify a switch: the device is held. -/
theorem sampleInput_held :
    (sampleInput "mining.a").allocate.assignments.map (fun a => (a.stream, a.held)) =
      [("mining.a", true)] ∧
    ∃ a ∈ (sampleInput "mining.a").allocate.assignments, a.deviceID = "gpu0" ∧
      Correct (sampleInput "mining.a") { id := "gpu0", family := .gpu }
        ((sampleInput "mining.a").previousFor { id := "gpu0", family := .gpu }).stream a := by
  refine ⟨by decide +kernel, ?_⟩
  have hcorrect := decide_correct (sampleInput "mining.a") _ (sampleInput_decide _)
    (sampleInput_wellFormed _)
  exact hcorrect.2.2 { id := "gpu0", family := .gpu } (by simp [sampleInput])

/-- A device whose stream is the best one keeps it, and is not held. -/
theorem sampleInput_stayed : (sampleInput "ai.b").decide = .ok (sampleInput "ai.b").allocate ∧
    WellFormed (sampleInput "ai.b").streams ∧
    ((sampleInput "ai.b").previousFor { id := "gpu0", family := .gpu }).stream = "ai.b" ∧
    (sampleInput "ai.b").allocate.assignments.map (fun a => (a.deviceID, a.stream, a.held)) =
      [("gpu0", "ai.b", false)] :=
  ⟨sampleInput_decide _, sampleInput_wellFormed _, by decide, by decide +kernel⟩

end Otedama.Arbitration
