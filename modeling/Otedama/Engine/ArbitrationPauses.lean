import Otedama.Arbitration.Stability
import Otedama.Engine.Arbitrate

/-! # Arbitration pauses

A device that arbitration takes off mining has to stop hashing and must
not be given work until it comes back. Two mechanisms share the task: the
pause set, which each tick brings up to date and which job dispatch reads,
and a single `SetWork(nil)` at the transition. The transition is read off
`SwitchedFromID`, which is empty in the first decision: a worker that has
a job by then goes on with it.

`pauses_effective_iff` says that this is the only gap. -/

namespace Otedama.Engine

open Arbitration Miner Stratum Poolproto List

/-! ## The loop and the sessions -/

/-- What happens to the loop and its workers. -/
inductive ArbEvent where
  | quote (now : Nat) (q : Quote)
  | tick (now : Nat) (o o' : GoMap.RangeOrder String) (rate : ℚ)
  | updateWork (chanID now : UInt32) (job : NewMiningJob) (prevHash : Bytes32)
      (prevNBits ntime : UInt32) (shareTarget : Hash)
  | applyJob (now : UInt32) (job : Job) (difficulty : ℚ)

/-- A Stratum V1 session dispatches a job; one without a usable target is
given to nobody. -/
def dispatchV1 (paused : PauseSet) (workers : List (Worker Work)) (now : UInt32) (job : Job)
    (difficulty : ℚ) : List (Worker Work) :=
  match applyJob now job difficulty with
  | .ok work => pushWork paused work workers
  | .error _ => workers

def ArbLoop.step (opts : ArbitrationOpts) (l : ArbLoop) : ArbEvent → ArbLoop
  | .quote now q => { l with store := l.store.fold now q }
  | .tick now o o' rate => arbitrationTick opts l now o o' rate
  | .updateWork chanID now job prevHash prevNBits ntime shareTarget =>
      { l with
        workers := updateWork l.paused l.workers chanID now job prevHash prevNBits ntime shareTarget }
  | .applyJob now job difficulty =>
      { l with workers := dispatchV1 l.paused l.workers now job difficulty }

def arbitrationLoop (opts : ArbitrationOpts) : Machine ArbLoop ArbEvent Empty where
  step l e := (l.step opts e, [])

def ArbLoop.start (workers : List (Worker Work)) : ArbLoop where
  store := Store.empty
  prevAlloc := none
  paused := []
  workers := workers

/-- The assignment is in force on the worker. -/
def InForce (paused : PauseSet) (a : Assignment) (w : Worker Work) : Prop :=
  if offMining a then w.work = none ∧ w.deviceID ∈ paused else w.deviceID ∉ paused

instance (paused : PauseSet) (a : Assignment) (w : Worker Work) : Decidable (InForce paused a w) :=
  inferInstanceAs (Decidable
    (if offMining a then w.work = none ∧ w.deviceID ∈ paused else w.deviceID ∉ paused))

/-- The allocation of the last successful decision is in force. -/
def Effective (l : ArbLoop) : Prop :=
  ∀ alloc ∈ l.prevAlloc, ∀ a ∈ alloc.assignments, ∀ w ∈ l.workers, w.deviceID = a.deviceID →
    InForce l.paused a w

/-! ## Dispatch -/

/-- Every worker has the work it had, or new work if its device is not
paused. -/
theorem work_of_mem_pushWork {ω : Type} {paused : List String} {work : ω}
    {workers : List (Worker ω)} {w' : Worker ω} (h : w' ∈ pushWork paused work workers) :
    ∃ w ∈ workers, w'.deviceID = w.deviceID ∧ (w.deviceID ∈ paused → w'.work = w.work) := by
  obtain ⟨w, hw, rfl⟩ := mem_map.mp h
  refine ⟨w, hw, ?_⟩
  by_cases hpaused : w.deviceID ∈ paused
  · simp [hpaused]
  · simp [hpaused, Worker.setWork]

variable {workers : List (Worker Work)}

theorem work_of_mem_updateWork {paused : PauseSet} {chanID now prevNBits ntime : UInt32}
    {job : NewMiningJob} {prevHash : Bytes32} {shareTarget : Hash} {w' : Worker Work}
    (h : w' ∈ updateWork paused workers chanID now job prevHash prevNBits ntime shareTarget) :
    ∃ w ∈ workers, w'.deviceID = w.deviceID ∧ (w.deviceID ∈ paused → w'.work = w.work) := by
  unfold updateWork at h
  split at h
  · exact work_of_mem_pushWork h
  · exact ⟨w', h, rfl, fun _ => rfl⟩

theorem work_of_mem_dispatchV1 {paused : PauseSet} {now : UInt32} {job : Job} {difficulty : ℚ}
    {w' : Worker Work} (h : w' ∈ dispatchV1 paused workers now job difficulty) :
    ∃ w ∈ workers, w'.deviceID = w.deviceID ∧ (w.deviceID ∈ paused → w'.work = w.work) := by
  unfold dispatchV1 at h
  split at h
  · exact work_of_mem_pushWork h
  · exact ⟨w', h, rfl, fun _ => rfl⟩

/-- Dispatch that spares paused devices leaves the allocation in force. -/
theorem Effective.dispatch {l : ArbLoop} (h : Effective l)
    (hwork : ∀ w' ∈ workers, ∃ w ∈ l.workers, w'.deviceID = w.deviceID ∧
      (w.deviceID ∈ l.paused → w'.work = w.work)) : Effective { l with workers := workers } := by
  intro alloc halloc a ha w' hw' hid
  obtain ⟨w, hw, hdevice, hkept⟩ := hwork w' hw'
  have hforce := h alloc halloc a ha w hw (hdevice.symm.trans hid)
  unfold InForce at hforce ⊢
  rw [hdevice]
  by_cases hoff : offMining a = true
  · rw [if_pos hoff] at hforce ⊢
    exact ⟨(hkept hforce.2).trans hforce.1, hforce.2⟩
  · rw [if_neg hoff] at hforce ⊢
    exact hforce

/-! ## Applying an allocation -/

/-- The assignment stops the workers of its device. -/
def Stops (a : Assignment) : Bool :=
  a.idle || (a.switchedFromID != "" && isMining a.switchedFromID && !isMining a.stream)

theorem applyAssignment_eq (workers : List (Worker Work)) (a : Assignment) :
    applyAssignment workers a = if Stops a then pauseDevice a.deviceID workers else workers := by
  unfold applyAssignment Stops
  cases a.idle with
  | true => simp
  | false =>
    by_cases hswitched : a.switchedFromID = ""
    · simp [hswitched]
    · simp [hswitched]

/-- A worker after some assignments have been applied. -/
def stopped (as : List Assignment) (w : Worker Work) : Worker Work :=
  as.foldl (fun w a => if Stops a ∧ w.deviceID = a.deviceID then w.setWork none else w) w

theorem applyAllocation_eq (alloc : Allocation) (workers : List (Worker Work)) :
    applyAllocation alloc workers = workers.map (stopped alloc.assignments) := by
  unfold applyAllocation
  generalize alloc.assignments = as
  induction as generalizing workers with
  | nil => exact (map_id workers).symm
  | cons a as ih =>
    rw [foldl_cons, ih, applyAssignment_eq]
    unfold stopped
    simp only [foldl_cons]
    by_cases hstops : Stops a = true
    · simp only [hstops, if_true, true_and, pauseDevice, map_map]
      rfl
    · simp [hstops]

theorem stopped_spec (as : List Assignment) (w : Worker Work) :
    (stopped as w).deviceID = w.deviceID ∧ (stopped as w).work =
        if ∃ a ∈ as, Stops a = true ∧ w.deviceID = a.deviceID then none else w.work := by
  unfold stopped
  induction as generalizing w with
  | nil => simp
  | cons a as ih =>
    rw [foldl_cons]
    by_cases hstops : Stops a = true ∧ w.deviceID = a.deviceID
    · rw [if_pos hstops]
      obtain ⟨hdevice, hwork⟩ := ih (w.setWork none)
      refine ⟨hdevice, hwork.trans ?_⟩
      have hnone : (w.setWork none).work = none := rfl
      rw [hnone, ite_self, if_pos ⟨a, mem_cons_self, hstops⟩]
    · rw [if_neg hstops]
      obtain ⟨hdevice, hwork⟩ := ih w
      refine ⟨hdevice, hwork.trans (if_congr ?_ rfl rfl)⟩
      simp [hstops]

/-- Where devices occur once, a worker is stopped by the assignment of its own
device or not at all. -/
theorem stopped_work {as : List Assignment} (hids : (as.map Assignment.deviceID).Nodup)
    {a : Assignment} (ha : a ∈ as) {w : Worker Work} (hw : w.deviceID = a.deviceID) :
    (stopped as w).work = if Stops a then none else w.work := by
  rw [(stopped_spec as w).2]
  refine if_congr ?_ rfl rfl
  constructor
  · rintro ⟨a', ha', hstops, hw'⟩
    obtain rfl : a' = a := inj_on_of_nodup_map hids ha' ha (hw'.symm.trans hw)
    exact hstops
  · exact fun hstops => ⟨a, ha, hstops, hw⟩

theorem mem_reconcileOne {p : PauseSet} {a : Assignment} {id : String} :
    id ∈ reconcileOne p a ↔ if id = a.deviceID then offMining a = true else id ∈ p := by
  unfold reconcileOne PauseSet.pause PauseSet.resume
  by_cases hid : id = a.deviceID
  · by_cases hoff : offMining a = true
    · by_cases hmem : a.deviceID ∈ p <;> simp [hid, hoff, hmem]
    · simp [hid, hoff]
  · by_cases hoff : offMining a = true
    · by_cases hmem : a.deviceID ∈ p <;> simp [hid, hoff, hmem]
    · simp [hid, hoff]

/-- Afterwards exactly the devices that are off mining are paused. -/
theorem mem_reconcileArbPauses {alloc : Allocation} {p : PauseSet}
    (hids : (alloc.assignments.map Assignment.deviceID).Nodup) {a : Assignment}
    (ha : a ∈ alloc.assignments) :
    a.deviceID ∈ reconcileArbPauses alloc p ↔ offMining a = true := by
  unfold reconcileArbPauses
  generalize alloc.assignments = as at hids ha
  -- Nothing after the assignment of the device touches its mark.
  induction as using reverseRecOn with
  | nil => cases ha
  | append_singleton as b ih =>
    rw [map_append, nodup_append] at hids
    rw [foldl_append, foldl_cons, foldl_nil, mem_reconcileOne]
    rcases mem_append.mp ha with ha | ha
    · have hne : a.deviceID ≠ b.deviceID := hids.2.2 _ (mem_map_of_mem ha) _ (by simp)
      rw [if_neg hne]
      exact ih hids.1 ha
    · obtain rfl := mem_singleton.mp ha
      rw [if_pos rfl]

/-- The new allocation is in force exactly when the workers it takes off
mining are stopped or idle anyway. -/
theorem effective_apply_iff {store : Store} {alloc : Allocation} {p : PauseSet}
    (hids : (alloc.assignments.map Assignment.deviceID).Nodup) :
    Effective { store := store
                prevAlloc := some alloc
                paused := reconcileArbPauses alloc p
                workers := applyAllocation alloc workers } ↔
      ∀ a ∈ alloc.assignments, ∀ w ∈ workers, w.deviceID = a.deviceID → offMining a = true →
        Stops a = true ∨ w.work = none := by
  have hforce : ∀ a ∈ alloc.assignments, ∀ w ∈ workers, w.deviceID = a.deviceID →
      (InForce (reconcileArbPauses alloc p) a (stopped alloc.assignments w) ↔
        (offMining a = true → Stops a = true ∨ w.work = none)) := by
    intro a ha w hw hid
    have hpaused := mem_reconcileArbPauses (p := p) hids ha
    unfold InForce
    rw [(stopped_spec _ w).1, stopped_work hids ha hid, hid, hpaused]
    by_cases hoff : offMining a = true
    · by_cases hstops : Stops a = true <;> simp [hoff, hstops]
    · simp [hoff]
  constructor
  · intro h a ha w hw hid
    have hmem : stopped alloc.assignments w ∈ applyAllocation alloc workers := by
      rw [applyAllocation_eq]
      exact mem_map_of_mem hw
    exact (hforce a ha w hw hid).mp
      (h alloc rfl a ha _ hmem ((stopped_spec _ w).1.trans hid))
  · intro h alloc' halloc a ha w' hw' hid
    obtain rfl := Option.some.inj halloc
    have hw'' : w' ∈ applyAllocation alloc workers := hw'
    rw [applyAllocation_eq] at hw''
    obtain ⟨w, hw, rfl⟩ := mem_map.mp hw''
    rw [(stopped_spec _ w).1] at hid
    exact (hforce a ha w hw hid).mpr (h a ha w hw hid)

/-! ## Transitions -/

/-- A device that leaves its stream for another one is reported as switched
from it. -/
theorem chooseForDevice_switchedFromID (dev : DeviceRef) (streams : List Stream)
    (previous : Assignment) (policy : Policy) (hysteresis minYield : ℚ) :
    (chooseForDevice dev streams previous policy hysteresis minYield).stream = "" ∨
      (chooseForDevice dev streams previous policy hysteresis minYield).stream = previous.stream ∨
      (chooseForDevice dev streams previous policy hysteresis minYield).switchedFromID =
        previous.stream := by
  rw [chooseForDevice_eq]
  generalize sortCandidates policy (candidateStreams dev minYield streams).1 = cands
  cases cands with
  | nil => exact .inl rfl
  | cons best others =>
    have hbest : (assignBest dev best previous policy (maxYield best others)).stream =
          previous.stream ∨
        (assignBest dev best previous policy (maxYield best others)).switchedFromID =
          previous.stream := by
      unfold assignBest
      dsimp only
      by_cases hprev : previous.stream = ""
      · simp [hprev]
      · by_cases hsame : previous.stream = best.id <;> simp [hprev, hsame]
    right
    simp only [chooseRanked]
    split
    · exact hbest
    · unfold incumbentHold
      split
      · exact hbest
      · next c hfind =>
        split
        · exact hbest
        · left
          show c.id = previous.stream
          simpa using find?_some hfind

/-- The stream serves the device, and goes before all others that do. -/
def FirstChoice (input : Input) (dev : DeviceRef) (s : Stream) : Prop :=
  s.Serves dev input.minYieldSatsPerSec ∧
    ∀ s' ∈ input.streams, s'.Serves dev input.minYieldSatsPerSec →
      Ranking.Before Stream.id (input.score dev) s s'

instance (input : Input) (dev : DeviceRef) (s : Stream) : Decidable (FirstChoice input dev s) :=
  inferInstanceAs (Decidable (_ ∧ ∀ s' ∈ input.streams, _ → _))

section

variable {input : Input} {dev : DeviceRef}

/-- Without a previous allocation a device gets its first choice, and nothing
is reported as switched. -/
theorem assignmentFor_first (hprevious : input.previous = none) (dev : DeviceRef) :
    (input.assignmentFor dev).switchedFromID = "" ∧
      (∀ s ∈ input.streams, FirstChoice input dev s → (input.assignmentFor dev).stream = s.id) ∧
      ((input.assignmentFor dev).stream ≠ "" →
        ∃ s ∈ input.streams, FirstChoice input dev s ∧ s.id = (input.assignmentFor dev).stream) := by
  obtain ⟨heldIdle, heq⟩ := input.assignmentFor_eq dev
  have hzero : input.previousFor dev = Assignment.zero := by
    simp [Input.previousFor, Input.prev, hprevious]
  rw [heq, hzero, chooseForDevice_eq]
  cases hsorted : sortCandidates input.policy
      (candidateStreams dev input.minYieldSatsPerSec input.streams).1 with
  | nil =>
    refine ⟨rfl, fun s hs hfirst => ?_, fun hne => absurd rfl hne⟩
    have hmem : s.candidate dev ∈ (candidateStreams dev input.minYieldSatsPerSec input.streams).1 :=
      mem_candidateStreams.mpr ⟨s, hs, hfirst.1, rfl⟩
    rw [Ranking.rank_eq_nil.mp hsorted] at hmem
    cases hmem
  | cons best others =>
    obtain ⟨hbest, hbefore⟩ := Ranking.before_of_rank_eq_cons hsorted
    obtain ⟨t, ht, hserves, rfl⟩ := mem_candidateStreams.mp hbest
    have htop : FirstChoice input dev t := by
      refine ⟨hserves, fun s' hs' hserves' => ?_⟩
      exact hbefore (s'.candidate dev) (mem_candidateStreams.mpr ⟨s', hs', hserves', rfl⟩)
    refine ⟨rfl, fun s hs hfirst => ?_, fun _ => ⟨t, ht, htop, rfl⟩⟩
    exact (htop.2 s hs hfirst.1).key_eq (hfirst.2 t ht hserves)

end

/-! ## Runs -/

/-- `Decide` accepts the input. -/
def Accepted (input : Input) : Prop :=
  input.policy.valid = true ∧ 0 ≤ input.hysteresisMargin ∧ 0 ≤ input.minYieldSatsPerSec ∧
    (input.devices.map DeviceRef.id).Nodup

instance (input : Input) : Decidable (Accepted input) :=
  inferInstanceAs (Decidable (_ ∧ _ ∧ _ ∧ _))

/-- The first accepted decision finds every worker that has work on a device
whose first choice is mining, or that has no choice. -/
def FirstDecisionSafe (opts : ArbitrationOpts) (l : ArbLoop) : ArbEvent → Prop
  | .tick now o o' rate =>
      let input := tickInput opts (l.store.tick now o o').2 none rate
      l.prevAlloc = none → Accepted input →
        ∀ dev ∈ opts.devRefs, ∀ w ∈ l.workers, w.deviceID = dev.id → w.work ≠ none →
          ∀ s ∈ input.streams, FirstChoice input dev s → s.id = "" ∨ isMining s.id = true
  | _ => True

instance (opts : ArbitrationOpts) (l : ArbLoop) : DecidablePred (FirstDecisionSafe opts l)
  | .tick now o o' rate =>
      inferInstanceAs (Decidable (l.prevAlloc = none →
        Accepted (tickInput opts (l.store.tick now o o').2 none rate) → _))
  | .quote .. => .isTrue trivial
  | .updateWork .. => .isTrue trivial
  | .applyJob .. => .isTrue trivial

/-- The allocation in force came out of a decision about these devices. -/
def Decided (opts : ArbitrationOpts) (l : ArbLoop) : Prop :=
  ∀ alloc ∈ l.prevAlloc, (opts.devRefs.map DeviceRef.id).Nodup ∧
    ∃ input : Input, input.devices = opts.devRefs ∧ alloc = input.allocate

section

variable {opts : ArbitrationOpts} {l : ArbLoop}

theorem stops_of_idle {a : Assignment} (h : a.stream = "") : Stops a = true := by
  simp [Stops, Assignment.idle, h]

/-- After the first decision, every transition off mining stops the workers. -/
theorem stops_of_decided (hdec : Decided opts l) (heff : Effective l) {alloc : Allocation}
    (halloc : l.prevAlloc = some alloc) {streams : List Stream} {rate : ℚ} {dev : DeviceRef}
    (hdev : dev ∈ opts.devRefs) {w : Worker Work} (hw : w ∈ l.workers) (hid : w.deviceID = dev.id)
    (hoff : offMining ((tickInput opts streams l.prevAlloc rate).assignmentFor dev) = true) :
    Stops ((tickInput opts streams l.prevAlloc rate).assignmentFor dev) = true ∨ w.work = none := by
  obtain ⟨hids, before, hdevices, rfl⟩ := hdec alloc halloc
  generalize hinput : tickInput opts streams l.prevAlloc rate = input at hoff ⊢
  have hprevious : input.previous = some before.allocate := by
    rw [← hinput, ← halloc]
    rfl
  have hprev : input.previousFor dev = before.assignmentFor dev :=
    previousFor_allocate (hdevices ▸ hids) hprevious (hdevices ▸ hdev)
  have hforce := heff _ halloc (before.assignmentFor dev)
    (mem_allocate.mpr ⟨dev, hdevices ▸ hdev, rfl⟩) w hw
    (hid.trans (assignmentFor_deviceID before dev).symm)
  unfold InForce at hforce
  by_cases hbefore : offMining (before.assignmentFor dev) = true
  · rw [if_pos hbefore] at hforce
    exact .inr hforce.1
  · left
    obtain ⟨heldIdle, heq⟩ := input.assignmentFor_eq dev
    rcases chooseForDevice_switchedFromID dev input.streams (input.previousFor dev) input.policy
      input.hysteresisMargin input.minYieldSatsPerSec with hidle | hsame | hswitched
    · exact stops_of_idle (by rw [heq]; exact hidle)
    · -- It would still be on its mining stream.
      have hstream : (input.assignmentFor dev).stream = (before.assignmentFor dev).stream := by
        rw [heq, ← hprev]
        exact hsame
      exact absurd hoff (by simpa [offMining, Assignment.idle, hstream] using hbefore)
    · have hfrom : (input.assignmentFor dev).switchedFromID = (before.assignmentFor dev).stream := by
        rw [heq, ← hprev]
        exact hswitched
      simp only [offMining, Assignment.idle, Bool.or_eq_true, beq_iff_eq, Bool.not_eq_true',
        not_or, Bool.not_eq_false] at hoff hbefore
      simp only [Stops, Assignment.idle, hfrom, hbefore.2, bne_iff_ne.mpr hbefore.1, Bool.true_and,
        Bool.or_eq_true, beq_iff_eq, Bool.not_eq_true']
      exact hoff

/-- In the first decision only idle devices are stopped. -/
theorem first_iff (input : Input) (hprevious : input.previous = none)
    (workers : List (Worker Work)) :
    (∀ a ∈ input.allocate.assignments, ∀ w ∈ workers, w.deviceID = a.deviceID →
      offMining a = true → Stops a = true ∨ w.work = none) ↔
    ∀ dev ∈ input.devices, ∀ w ∈ workers, w.deviceID = dev.id → w.work ≠ none →
      ∀ s ∈ input.streams, FirstChoice input dev s → s.id = "" ∨ isMining s.id = true := by
  constructor
  · intro h dev hdev w hw hid hwork s hs hfirst
    obtain ⟨hfrom, hchoice, -⟩ := assignmentFor_first hprevious dev
    have hstream := hchoice s hs hfirst
    by_contra hnot
    obtain ⟨hnamed, hmining⟩ := not_or.mp hnot
    have hoff : offMining (input.assignmentFor dev) = true := by
      simp [offMining, hstream, hmining]
    rcases h _ (mem_allocate.mpr ⟨dev, hdev, rfl⟩) w hw
      (hid.trans (assignmentFor_deviceID input dev).symm) hoff with hstops | hnone
    · simp [Stops, Assignment.idle, hfrom, hstream, hnamed] at hstops
    · exact hwork hnone
  · intro h a ha w hw hid hoff
    obtain ⟨dev, hdev, rfl⟩ := mem_allocate.mp ha
    rw [assignmentFor_deviceID] at hid
    by_cases hidle : (input.assignmentFor dev).stream = ""
    · exact .inl (stops_of_idle hidle)
    · right
      by_contra hwork
      obtain ⟨s, hs, hfirst, hid'⟩ := (assignmentFor_first hprevious dev).2.2 hidle
      rcases h dev hdev w hw hid hwork s hs hfirst with hempty | hmining
      · exact hidle (hid'.symm.trans hempty)
      · rw [hid'] at hmining
        simp [offMining, Assignment.idle, hidle, hmining] at hoff

/-- A tick, when nothing is wrong before it. -/
theorem effective_tick_iff (hdec : Decided opts l) (heff : Effective l) (now : Nat)
    (o o' : GoMap.RangeOrder String) (rate : ℚ) : Effective (arbitrationTick opts l now o o' rate) ↔
      FirstDecisionSafe opts l (.tick now o o' rate) := by
  unfold arbitrationTick FirstDecisionSafe
  dsimp only
  generalize (l.store.tick now o o') = ticked
  cases hdecide : (tickInput opts ticked.2 l.prevAlloc rate).decide with
  | error e =>
    refine iff_of_true heff fun hnone haccepted => ?_
    obtain ⟨hpolicy, hmargin, hfloor, hids⟩ := haccepted
    have hok := Input.decide_eq_ok.mpr ⟨hpolicy, hmargin, hfloor, hids, rfl⟩
    rw [hnone, hok] at hdecide
    cases hdecide
  | ok alloc =>
    obtain ⟨hpolicy, hmargin, hfloor, hids, rfl⟩ := Input.decide_eq_ok.mp hdecide
    dsimp only
    rw [effective_apply_iff (allocate_ids_nodup hids)]
    cases hprev : l.prevAlloc with
    | none =>
      rw [hprev] at hpolicy hmargin hfloor hids
      rw [first_iff _ rfl]
      exact ⟨fun h _ _ => h, fun h => h rfl ⟨hpolicy, hmargin, hfloor, hids⟩⟩
    | some alloc =>
      refine iff_of_true ?_ fun hnone => by cases hnone
      intro a ha w hw hid hoff
      obtain ⟨dev, hdev, rfl⟩ := mem_allocate.mp ha
      rw [assignmentFor_deviceID] at hid
      rw [← hprev] at hoff ⊢
      exact stops_of_decided hdec heff hprev hdev hw hid hoff

theorem decided_step (hdec : Decided opts l) (e : ArbEvent) : Decided opts (l.step opts e) := by
  cases e with
  | quote now q => exact hdec
  | updateWork => exact hdec
  | applyJob => exact hdec
  | tick now o o' rate =>
    unfold ArbLoop.step arbitrationTick
    dsimp only
    split
    · exact hdec
    · next alloc hdecide =>
      obtain ⟨-, -, -, hids, rfl⟩ := Input.decide_eq_ok.mp hdecide
      intro alloc' halloc'
      obtain rfl := Option.some.inj halloc'
      exact ⟨hids, _, rfl, rfl⟩

theorem effective_step_iff (hdec : Decided opts l) (heff : Effective l) (e : ArbEvent) :
    Effective (l.step opts e) ↔ FirstDecisionSafe opts l e := by
  cases e with
  | quote now q => exact iff_of_true heff trivial
  | tick now o o' rate => exact effective_tick_iff hdec heff now o o' rate
  | updateWork => exact iff_of_true (heff.dispatch fun _ => work_of_mem_updateWork) trivial
  | applyJob => exact iff_of_true (heff.dispatch fun _ => work_of_mem_dispatchV1) trivial

end

/-- **Arbitration pauses.**  The allocation of the last decision is in force
after every event of a run exactly when the first accepted decision of the
run does not send a device away from mining while its worker has work. -/
theorem pauses_effective_iff (opts : ArbitrationOpts) (workers : List (Worker Work))
    (es : List ArbEvent) :
    (∀ pre, pre <+: es → Effective ((arbitrationLoop opts).run (ArbLoop.start workers) pre)) ↔
      (arbitrationLoop opts).Meets (FirstDecisionSafe opts) (ArbLoop.start workers) es := by
  refine (arbitrationLoop opts).run_exact (A := fun _ l => Decided opts l)
    (P := fun _ l => Effective l) (Q := fun _ => True) ?_ ?_ ?_ ?_ es fun _ _ => trivial
  · intro alloc halloc
    cases halloc
  · intro alloc halloc
    cases halloc
  · exact fun _ l e _ hdec => decided_step hdec e
  · exact fun _ l e _ hdec heff => effective_step_iff hdec heff e

/-- One CPU, and no floor. -/
def sampleArbitration : ArbitrationOpts where
  devRefs := [{ id := "cpu0", family := .cpu }]
  hysteresisPct := 0
  minYield := 0
  powerWatts := 0
  powerPricePerKWh := 0

/-- The pool sends a job; then the first decision finds that the CPU earns more
elsewhere. -/
def earlyJob : List ArbEvent :=
  [.updateWork 7 0 sampleJob sampleTip.prevHash sampleTip.nBits 0 Bytes.zero32,
   .quote 0 (sampleQuote "mining.pool" "" 10), .quote 0 (sampleQuote "ai.x" "" 100),
   .tick 0 (.first "ai.x:") (.first "ai.x") 0]

/-- The CPU is sent to `ai.x` and marked as paused, but keeps hashing. -/
theorem earlyJob_keeps_hashing :
    ¬ Effective ((arbitrationLoop sampleArbitration).run
      (ArbLoop.start [{ deviceID := "cpu0", work := none, workVer := 0 }]) earlyJob) := by
  unfold Effective
  decide +kernel

/-- Had the job come after the decision, it would have been kept from the CPU. -/
example : (arbitrationLoop sampleArbitration).Meets (FirstDecisionSafe sampleArbitration)
    (ArbLoop.start [{ deviceID := "cpu0", work := none, workVer := 0 }]) (earlyJob.rotate 1) := by
  decide +kernel

end Otedama.Engine
