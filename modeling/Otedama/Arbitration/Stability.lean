import Otedama.Arbitration.Optimality

/-! # Decisions do not depend on order, and do not flap

Two properties of `Decide` across several calls.

* The streams come out of a Go map in an arbitrary order. Listing
  devices, streams or previous assignments in another order changes
  nothing.
* Feeding each allocation back as the previous one of the next decision
  settles at once: while the quotes stay the same, a device switches in
  the first decision or never. -/

namespace Otedama.Arbitration

open Assignment

/-! ## Order independence -/

/-- The two inputs differ at most in the order in which devices, streams and
previous assignments are listed. -/
structure Input.Reordered (input input' : Input) : Prop where
  devices : input.devices.Perm input'.devices
  streams : input.streams.Perm input'.streams
  previous : Option.Rel (fun p p' => p.assignments.Perm p'.assignments)
    input.previous input'.previous
  policy : input'.policy = input.policy
  hysteresisMargin : input'.hysteresisMargin = input.hysteresisMargin
  minYieldSatsPerSec : input'.minYieldSatsPerSec = input.minYieldSatsPerSec

theorem previousByDevice_lookup {assignments : List Assignment}
    (hids : (assignments.map deviceID).Nodup) {id : String} {a : Assignment} :
    (previousByDevice assignments).lookup id = some a ↔ a ∈ assignments ∧ a.deviceID = id := by
  unfold previousByDevice
  rw [GoMap.lookup_foldl_insert hids]
  simp

theorem previousByDevice_perm {as as' : List Assignment} (hperm : as.Perm as')
    (hids : (as.map deviceID).Nodup) (id : String) :
    (previousByDevice as').lookup id = (previousByDevice as).lookup id := by
  have hids' : (as'.map deviceID).Nodup := (hperm.map _).nodup_iff.mp hids
  apply Option.ext
  intro a
  rw [previousByDevice_lookup hids, previousByDevice_lookup hids', hperm.mem_iff]

theorem chooseForDevice_perm {streams streams' : List Stream}
    (hids : (streams.map Stream.id).Nodup) (hperm : streams.Perm streams') (dev : DeviceRef)
    (previous : Assignment) (policy : Policy) (hysteresis minYield : ℚ) :
    chooseForDevice dev streams' previous policy hysteresis minYield =
      chooseForDevice dev streams previous policy hysteresis minYield := by
  obtain ⟨hcands, hbelow⟩ := candidateStreams_perm dev minYield hperm
  have hsorted : sortCandidates policy (candidateStreams dev minYield streams).1 =
      sortCandidates policy (candidateStreams dev minYield streams').1 :=
    Ranking.rank_eq_of_perm (candidateStreams_ids_nodup dev minYield hids) hcands
  rw [chooseForDevice_eq, chooseForDevice_eq, hsorted, hbelow]

theorem sortDevices_eq_of_perm {devices devices' : List DeviceRef}
    (hids : (devices.map DeviceRef.id).Nodup) (hperm : devices.Perm devices') :
    sortDevices devices' = sortDevices devices := by
  have hperm' : (sortDevices devices').Perm (sortDevices devices) :=
    (sortDevices_perm devices').trans (hperm.symm.trans (sortDevices_perm devices).symm)
  refine hperm'.eq_of_pairwise ?_ (sortDevices_pairwise devices') (sortDevices_pairwise devices)
  intro a b ha hb hab hba
  have ha' : a ∈ devices := hperm.mem_iff.mpr ((sortDevices_perm devices').mem_iff.mp ha)
  have hb' : b ∈ devices := (sortDevices_perm devices).mem_iff.mp hb
  exact List.inj_on_of_nodup_map hids ha' hb' (le_antisymm hab hba)

section

variable {input input' : Input}

theorem Input.Reordered.prev (h : input.Reordered input')
    (hprev : ∀ p ∈ input.previous, (p.assignments.map deviceID).Nodup) (id : String) :
    input'.prev.lookup id = input.prev.lookup id := by
  have hrel := h.previous
  unfold Input.prev
  generalize input'.previous = previous' at hrel ⊢
  generalize input.previous = previous at hrel hprev ⊢
  cases hrel with
  | none => rfl
  | some hperm => exact previousByDevice_perm hperm (hprev _ rfl) id

/-- A device gets the same assignment, with every field. -/
theorem Input.Reordered.assignmentFor (h : input.Reordered input')
    (hids : (input.streams.map Stream.id).Nodup)
    (hprev : ∀ p ∈ input.previous, (p.assignments.map deviceID).Nodup)
    (dev : DeviceRef) : input'.assignmentFor dev = input.assignmentFor dev := by
  unfold Input.assignmentFor Input.previousFor
  dsimp only
  rw [h.prev hprev, h.policy, h.hysteresisMargin, h.minYieldSatsPerSec,
    chooseForDevice_perm hids h.streams]

end

/-- **Order independence.**  Listing the devices, the streams and the previous
assignments of an accepted input in another order gives the same
allocation. -/
theorem decide_reordered (input input' : Input) (alloc : Allocation)
    (hok : input.decide = .ok alloc) (hids : (input.streams.map Stream.id).Nodup)
    (hprev : ∀ p ∈ input.previous, (p.assignments.map Assignment.deviceID).Nodup)
    (h : input.Reordered input') : input'.decide = .ok alloc := by
  obtain ⟨hpolicy, hmargin, hfloor, hdevices, rfl⟩ := Input.decide_eq_ok.mp hok
  have hdevices' : (input'.devices.map DeviceRef.id).Nodup :=
    (h.devices.map DeviceRef.id).nodup_iff.mp hdevices
  refine Input.decide_eq_ok.mpr ⟨?_, ?_, ?_, hdevices', ?_⟩
  · rw [h.policy]
    exact hpolicy
  · rw [h.hysteresisMargin]
    exact hmargin
  · rw [h.minYieldSatsPerSec]
    exact hfloor
  · unfold Input.allocate
    rw [sortDevices_eq_of_perm hdevices h.devices, h.policy]
    congr 1
    funext alloc dev
    rw [h.assignmentFor hids hprev]

/-- Listing the two streams the other way round changes nothing. -/
theorem sampleInput_reversed :
    { sampleInput "mining.a" with streams := (sampleInput "mining.a").streams.reverse }.decide =
      .ok (sampleInput "mining.a").allocate := by
  apply decide_reordered (sampleInput "mining.a") _ _ (sampleInput_decide _)
    (sampleInput_wellFormed _).ids
  · intro p hp
    obtain rfl := Option.some.inj hp
    exact List.nodup_singleton _
  · exact ⟨List.Perm.refl _, (List.reverse_perm _).symm, .some (List.Perm.refl _), rfl, rfl, rfl⟩

/-! ## No flapping -/

/-- The decisions when each allocation is the previous one of the next: the
first is that of `input`. -/
def Input.decisions (input : Input) : Nat → Except DecideError Allocation
  | 0 => input.decide
  | n + 1 =>
      match input.decisions n with
      | .ok alloc => { input with previous := some alloc }.decide
      | .error e => .error e

/-- Which stream a device works for, if any, and what it yields. -/
def Assignment.outcome (a : Assignment) : String × String × ℚ × Bool :=
  (a.deviceID, a.stream, a.expectedYield, a.idle)

/-- A device that comes from the stream it was given stays with it. -/
theorem chooseForDevice_again {streams : List Stream} {policy : Policy} {hysteresis minYield : ℚ}
    {dev : DeviceRef} (hids : (streams.map Stream.id).Nodup) (hnamed : ∀ s ∈ streams, s.id ≠ "")
    (hmargin : 0 ≤ hysteresis)
    (hscores : ∀ c ∈ (candidateStreams dev minYield streams).1, 0 ≤ c.score policy)
    (before previous : Assignment) (hprev : previous.stream =
      (chooseForDevice dev streams before policy hysteresis minYield).stream) :
    (chooseForDevice dev streams previous policy hysteresis minYield).stream =
        (chooseForDevice dev streams before policy hysteresis minYield).stream ∧
      (chooseForDevice dev streams previous policy hysteresis minYield).expectedYield =
        (chooseForDevice dev streams before policy hysteresis minYield).expectedYield ∧
      (chooseForDevice dev streams previous policy hysteresis minYield).switchedFromID = "" := by
  by_cases hcands : (candidateStreams dev minYield streams).1 = []
  · rw [chooseForDevice_idle hcands, chooseForDevice_idle hcands]
    exact ⟨rfl, rfl, rfl⟩
  · obtain ⟨c, h⟩ := chooseForDevice_picked before policy hysteresis hids hnamed hcands
    obtain ⟨c', h'⟩ := chooseForDevice_picked previous policy hysteresis hids hnamed hcands
    -- The choice is a fixed point, and there is only one choice.
    have hagain := h.chosen.again hmargin hscores
    rw [hprev, h.stream] at h'
    obtain rfl : c = c' := hagain.unique (candidateStreams_ids_nodup dev minYield hids) h'.chosen
    refine ⟨h'.stream.trans h.stream.symm, h'.expectedYield.trans h.expectedYield.symm, ?_⟩
    rw [h'.switchedFromID]
    simp

section

variable {input : Input} {dev : DeviceRef}

/-- A device's previous assignment, when the previous allocation is that of
an input with the same devices. -/
theorem previousFor_allocate {before : Input} (hdevices : (before.devices.map DeviceRef.id).Nodup)
    (hprevious : input.previous = some before.allocate) (hdev : dev ∈ before.devices) :
    input.previousFor dev = before.assignmentFor dev := by
  have hlookup : input.prev.lookup dev.id = some (before.assignmentFor dev) := by
    unfold Input.prev
    rw [hprevious]
    exact (previousByDevice_lookup (allocate_ids_nodup hdevices)).mpr
      ⟨mem_allocate.mpr ⟨dev, hdev, rfl⟩, assignmentFor_deviceID before dev⟩
  unfold Input.previousFor
  rw [hlookup]
  rfl

/-- One round: every device keeps its outcome, and no switch is reported. -/
theorem assignmentFor_again (hwf : WellFormed input.streams)
    (hmargin : 0 ≤ input.hysteresisMargin) (hdevices : (input.devices.map DeviceRef.id).Nodup)
    (previous : Option Allocation) (hdev : dev ∈ input.devices) :
    let before : Input := { input with previous := previous }
    let after : Input := { input with previous := some before.allocate }
    (after.assignmentFor dev).outcome = (before.assignmentFor dev).outcome ∧
      (after.assignmentFor dev).switchedFromID = "" := by
  intro before after
  have hprev : after.previousFor dev = before.assignmentFor dev :=
    previousFor_allocate hdevices rfl hdev
  obtain ⟨_, hbefore⟩ := before.assignmentFor_eq dev
  obtain ⟨_, hafter⟩ := after.assignmentFor_eq dev
  have hstream : (after.previousFor dev).stream = (chooseForDevice dev input.streams
      (before.previousFor dev) input.policy input.hysteresisMargin
      input.minYieldSatsPerSec).stream := by
    rw [hprev, hbefore]
  obtain ⟨hsame, hyield, hswitched⟩ := chooseForDevice_again hwf.ids hwf.named hmargin
    (fun c hc => hwf.score_nonneg hc) _ _ hstream
  have hid := (assignmentFor_deviceID after dev).trans (assignmentFor_deviceID before dev).symm
  rw [hbefore, hafter] at hid ⊢
  refine ⟨?_, hswitched⟩
  unfold outcome idle
  simp only [Prod.mk.injEq]
  exact ⟨hid, hsame, hyield, congrArg (· == "") hsame⟩

end

/-- **No flapping.**  When each allocation is fed back as the previous one,
every decision from the second on leaves every device with the stream, the
yield and the idle state of the first, and reports no switch: a device
switches at most once, in the first decision. -/
theorem decisions_settle (input : Input) (first : Allocation) (hok : input.decide = .ok first)
    (hwf : WellFormed input.streams) (n : Nat) :
    ∃ alloc, input.decisions (n + 1) = .ok alloc ∧
      alloc.assignments.map Assignment.outcome = first.assignments.map Assignment.outcome ∧
      ∀ a ∈ alloc.assignments, a.switchedFromID = "" := by
  obtain ⟨hpolicy, hmargin, hfloor, hdevices, rfl⟩ := Input.decide_eq_ok.mp hok
  have haccepted : ∀ previous, { input with previous := previous }.decide =
      .ok { input with previous := previous }.allocate := fun previous =>
    Input.decide_eq_ok.mpr ⟨hpolicy, hmargin, hfloor, hdevices, rfl⟩
  -- Each decision is that of the input with some previous allocation whose
  -- outcome is that of the first decision.
  have hrounds : ∀ n, ∃ previous,
      input.decisions n = .ok { input with previous := previous }.allocate ∧
      ∀ dev ∈ input.devices, ({ input with previous := previous }.assignmentFor dev).outcome =
        (input.assignmentFor dev).outcome := by
    intro n
    induction n with
    | zero => exact ⟨input.previous, hok, fun _ _ => rfl⟩
    | succ n ih =>
      obtain ⟨previous, hn, hsame⟩ := ih
      refine ⟨some { input with previous := previous }.allocate, ?_, fun dev hdev => ?_⟩
      · simp only [Input.decisions, hn]
        exact haccepted _
      · rw [← hsame dev hdev]
        exact (assignmentFor_again hwf hmargin hdevices previous hdev).1
  obtain ⟨previous, hn, hsame⟩ := hrounds n
  refine ⟨{ input with previous := some { input with previous := previous }.allocate }.allocate,
    ?_, ?_, ?_⟩
  · simp only [Input.decisions, hn]
    exact haccepted _
  · rw [allocate_assignments, allocate_assignments, List.map_map, List.map_map]
    refine List.map_congr_left fun dev hdev => ?_
    have hdev' : dev ∈ input.devices := (sortDevices_perm _).mem_iff.mp hdev
    show Assignment.outcome _ = Assignment.outcome _
    rw [← hsame dev hdev']
    exact (assignmentFor_again hwf hmargin hdevices previous hdev').1
  · intro a ha
    obtain ⟨dev, hdev, rfl⟩ := mem_allocate.mp ha
    exact (assignmentFor_again hwf hmargin hdevices previous hdev).2

/-- A device whose stream is gone switches once. -/
theorem sampleInput_switches_once :
    (sampleInput "ai.gone").allocate.assignments.map (fun a => (a.stream, a.switchedFromID)) =
      [("ai.b", "ai.gone")] ∧
    ∃ alloc, (sampleInput "ai.gone").decisions 5 = .ok alloc ∧
      alloc.assignments.map Assignment.outcome =
        (sampleInput "ai.gone").allocate.assignments.map Assignment.outcome ∧
      ∀ a ∈ alloc.assignments, a.switchedFromID = "" :=
  ⟨by decide +kernel, decisions_settle _ _ (sampleInput_decide _) (sampleInput_wellFormed _) 4⟩

end Otedama.Arbitration
