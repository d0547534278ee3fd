import Otedama.Engine.System
import Otedama.Miner.GrindOnce
import Otedama.Miner.NonceSpace

/-! # Duplicate shares

A retarget (`SetTarget`, `mining.set_difficulty`) re-issues the current
job as a new `Work`, and every thread starts the nonce space over. Only
the timestamp that `rollNTime` puts into the new header tells the two
grinds apart, and it counts whole seconds: when the clock has not moved
on, or the pool's ntime lies in the future, the same headers are hashed
and the same shares emitted again.

Seen from its single worker, every step of the engine is a step of
`rigSystem` or no step at all. So the worker emits no header twice in
every run whose calls of `SetWork` are `Spaced`. -/

namespace Otedama.Engine

open Miner Stratum Poolproto List

/-! ## The worker inside the engine -/

/-- The configuration that a single device gets. -/
theorem singleWorker_of_startMinerWorkers {numCPU : Nat} {devices : List Device}
    {cfg : WorkerConfig} (hpos : 0 < numCPU) (hlt : numCPU < 2 ^ 32)
    (h : startMinerWorkers numCPU devices = .ok [cfg]) : SingleWorker cfg := by
  unfold startMinerWorkers at h
  dsimp only at h
  split at h
  · cases h
  · have hmap := Except.ok.inj h
    have hlength : (devices.filter Device.sha256d).length = 1 := by
      simpa using congrArg length hmap
    obtain ⟨dev, hdev⟩ := length_eq_one_iff.mp hlength
    rw [hdev] at hmap
    have hne : numCPU ≠ 0 := by omega
    obtain rfl : WorkerConfig.mk numCPU (UInt32.ofNat numCPU) 0 dev.id = cfg := by
      simpa [newWorker, minerConfig, hne] using hmap
    refine ⟨rfl, ?_, hpos⟩
    exact UInt32.toNat_ofNat_of_lt' (by simpa [UInt32.size] using hlt)

/-- The next call of `SetWork`, or the next hash, is `Spaced` for the worker
that it concerns. -/
def SpacedAt (sys : System) : Move → Prop
  | .setWork => ∀ call ∈ sys.todo.head?, ∀ lane ∈ sys.lanes[call.1]?,
      Spaced lane.rig (.setWork call.2)
  | .hash i threadID => ∀ lane ∈ sys.lanes[i]?, Spaced lane.rig (.hash threadID)
  | _ => True

instance (sys : System) : ∀ move, Decidable (SpacedAt sys move)
  | .setWork => inferInstanceAs (Decidable (∀ call ∈ sys.todo.head?, ∀ lane ∈ sys.lanes[call.1]?,
      Spaced lane.rig (.setWork call.2)))
  | .hash i threadID => inferInstanceAs (Decidable (∀ lane ∈ sys.lanes[i]?,
      Spaced lane.rig (.hash threadID)))
  | .startV2 .. | .startV1 .. | .turnV2 .. | .turnV1 .. | .takeShare .. | .reconnect
  | .idle .. | .reload .. | .pickUp .. | .putDown .. => .isTrue trivial

section

variable {sha256 : List UInt8 → Bytes32} {sys sys' : System} {lane : Lane}

theorem System.lane_single {i : Nat} {lane' : Lane} (hlanes : sys.lanes = [lane])
    (h : sys.lanes[i]? = some lane') : i = 0 ∧ lane = lane' := by
  rw [hlanes] at h
  cases i with
  | zero => exact ⟨rfl, by simpa using h⟩
  | succ i => simp at h

/-- A move of the only worker. -/
theorem System.moveRig_single {i : Nat} {move : RigMove Issue} (hlanes : sys.lanes = [lane])
    (h : sys.moveRig sha256 i move = some sys') :
    sys.lanes[i]? = some lane ∧ ∃ rig, lane.rig.next sha256 move = some rig ∧
      sys'.lanes = [{ lane with rig := rig }] := by
  obtain ⟨lane', rig, hlane, hrig, rfl⟩ := System.moveRig_eq_some h
  obtain ⟨rfl, rfl⟩ := System.lane_single hlanes hlane
  exact ⟨hlane, rig, hrig, by simp [hlanes]⟩

/-- Seen from the only worker, every step is a step of the worker or none. -/
theorem System.next_single {move : Move} (hlanes : sys.lanes = [lane])
    (hspaced : SpacedAt sys move) (h : sys.next sha256 move = some sys') :
    ∃ lane', sys'.lanes = [lane'] ∧ (lane'.rig = lane.rig ∨
      ∃ rigMove, Spaced lane.rig rigMove ∧ lane.rig.next sha256 rigMove = some lane'.rig) := by
  cases System.next_stepped h with
  | takeShare _ _ hdeliver =>
    obtain ⟨session, log, rfl, -⟩ := System.deliver_eq_some hdeliver
    exact ⟨lane, hlanes, .inl rfl⟩
  | @setWork _ i work todo htodo hrig =>
    have hlanes₁ : { sys with todo := todo }.lanes = [lane] := hlanes
    obtain ⟨hlane, rig, hnext, hlanes'⟩ := System.moveRig_single hlanes₁ hrig
    have hhead : sys.todo.head? = some (i, work) := by rw [htodo]; rfl
    exact ⟨_, hlanes', .inr ⟨_, hspaced _ hhead lane hlane, hnext⟩⟩
  | idle hrig =>
    obtain ⟨-, rig, hnext, hlanes'⟩ := System.moveRig_single hlanes hrig
    exact ⟨_, hlanes', .inr ⟨.setWork none, trivial, hnext⟩⟩
  | @reload _ _ threadID hrig =>
    obtain ⟨-, rig, hnext, hlanes'⟩ := System.moveRig_single hlanes hrig
    exact ⟨_, hlanes', .inr ⟨.reload threadID, trivial, hnext⟩⟩
  | hash hrig =>
    obtain ⟨hlane, rig, hnext, hlanes'⟩ := System.moveRig_single hlanes hrig
    exact ⟨_, hlanes', .inr ⟨_, hspaced lane hlane, hnext⟩⟩
  | @pickUp i rig share shares hlane hshares =>
    obtain ⟨rfl, rfl⟩ := System.lane_single hlanes hlane
    refine ⟨{ rig := { rig with shares := shares }, slot := some share }, by simp [hlanes],
      .inr ⟨.takeShare, trivial, ?_⟩⟩
    simp [Rig.next, hshares]
  | @putDown i rig share hlane =>
    obtain ⟨rfl, rfl⟩ := System.lane_single hlanes hlane
    exact ⟨{ rig := rig, slot := none }, by simp [hlanes], .inl rfl⟩
  | _ => exact ⟨lane, hlanes, .inl rfl⟩

end

/-! ## Whole runs -/

/-- **No duplicate shares** in spaced runs: with one worker of any number of
threads, over any sessions and interleavings, no two shares that the
worker emits carry the same header. -/
theorem emitted_headers_nodup (sha256 : List UInt8 → Bytes32) {numCPU : Nat}
    {devices : List Device} {cfg : WorkerConfig} (hpos : 0 < numCPU) (hlt : numCPU < 2 ^ 32)
    (hstart : startMinerWorkers numCPU devices = .ok [cfg]) (m : ShareMetrics) {sys : System}
    (hreach : (engine sha256).Reach SpacedAt (System.start [cfg] m) sys) :
    ∃ lane, sys.lanes = [lane] ∧ lane.rig.sentHeaders.Nodup := by
  have hsingle := singleWorker_of_startMinerWorkers hpos hlt hstart
  obtain ⟨lane, hlanes, hrig⟩ : ∃ lane, sys.lanes = [lane] ∧
      (rigSystem sha256 Issue.work).Reach Spaced (Rig.start Issue.work cfg) lane.rig := by
    refine hreach.invariant (P := fun sys => ∃ lane, sys.lanes = [lane] ∧
      (rigSystem sha256 Issue.work).Reach Spaced (Rig.start Issue.work cfg) lane.rig)
      ⟨_, rfl, .init⟩ ?_
    rintro sys move sys' ⟨lane, hlanes, hrig⟩ hspaced h
    -- The worker stays as it is or takes one spaced step of its own.
    obtain ⟨lane', hlanes', hsame | ⟨rigMove, hspaced', hnext⟩⟩ :=
      System.next_single hlanes hspaced h
    · exact ⟨lane', hlanes', hsame ▸ hrig⟩
    · exact ⟨lane', hlanes', hrig.step rigMove hspaced' hnext⟩
  exact ⟨lane, hlanes, reach_sentHeaders_nodup sha256 hsingle hrig⟩

/-- Work is issued at second 10 and ground by both threads; the pool retargets
at second 11. -/
def spacedRetarget : List Move :=
  [.startV2 sampleOpts easyTarget, .turnV2 calmEnv (.poolMsg (.newMiningJob sampleJob)),
   .turnV2 { calmEnv with now := 10 * 10 ^ 9 } (.poolMsg (.setNewPrevHash sampleTip)),
   .setWork, .reload 0 0, .hash 0 0, .reload 0 1, .hash 0 1,
   .turnV2 { calmEnv with now := 11 * 10 ^ 9 }
     (.poolMsg (.setTarget { channelID := 7, target := easyTarget })),
   .setWork, .hash 0 0]

theorem spacedRetarget_nodup : ∃ sys lane,
    (engine fun _ => Bytes.zero32).exec (System.start [sampleConfig] zeroMetrics)
      spacedRetarget = some sys ∧
    sys.lanes = [lane] ∧ lane.rig.sentHeaders.length = 3 ∧ lane.rig.sentHeaders.Nodup := by
  have hlength : ((engine fun _ => Bytes.zero32).exec (System.start [sampleConfig] zeroMetrics)
      spacedRetarget).map (fun sys => sys.lanes.map fun lane => lane.rig.sentHeaders.length) =
      some [3] := by decide
  obtain ⟨sys, hexec, hmap⟩ := Option.map_eq_some_iff.mp hlength
  have hreach := (LTS.Reach.init (C := SpacedAt)).exec spacedRetarget (by decide) hexec
  have hstart : startMinerWorkers 2 [{ id := "cpu0", sha256d := true }] = .ok [sampleConfig] := rfl
  obtain ⟨lane, hlanes, hnodup⟩ :=
    emitted_headers_nodup _ (by decide) (by decide) hstart zeroMetrics hreach
  refine ⟨sys, lane, hexec, hlanes, ?_, hnodup⟩
  simpa [hlanes] using hmap

/-! ## A retarget within one second -/

/-- Work is issued and hashed once at second 10, and the pool retargets within
the same second. -/
def retargetStart : List Move :=
  [.startV2 sampleOpts easyTarget, .turnV2 calmEnv (.poolMsg (.newMiningJob sampleJob)),
   .turnV2 { calmEnv with now := 10 * 10 ^ 9 } (.poolMsg (.setNewPrevHash sampleTip)),
   .setWork, .reload 0 0, .hash 0 0,
   .turnV2 { calmEnv with now := 10 * 10 ^ 9 }
     (.poolMsg (.setTarget { channelID := 7, target := Vector.replicate 32 0x7f })),
   .setWork]

/-- The thread finishes its batch, a share is received to make room in the
channel, and the thread reloads and hashes again. -/
def retargetRun : List Move :=
  retargetStart ++ (List.replicate 1023 (.hash 0 0) ++ (.pickUp 0 :: [.reload 0 0, .hash 0 0]))

/-- The header of the sample job at second 10. -/
def sampleHeader : Header :=
  { version := 0x20000000, prevHash := Bytes.zero32, merkleRoot := Bytes.zero32, time := 10,
    bits := 0x1d00ffff, nonce := 0 }

/-- The same header is emitted twice. -/
theorem retargetRun_duplicates : ∃ sys lane,
    (engine fun _ => Bytes.zero32).exec (System.start [sampleConfig] zeroMetrics)
      retargetRun = some sys ∧ sys.lanes = [lane] ∧
    [sampleHeader.bytes, sampleHeader.bytes].Sublist lane.rig.sentHeaders ∧
    ¬ lane.rig.sentHeaders.Nodup := by
  have hcount : ((engine fun _ => Bytes.zero32).exec (System.start [sampleConfig] zeroMetrics)
      retargetRun).map (fun sys => sys.lanes.map fun lane =>
        lane.rig.sentHeaders.count sampleHeader.bytes) = some [2] := by decide +kernel
  obtain ⟨sys, hexec, hlanes⟩ := Option.map_eq_some_iff.mp hcount
  obtain ⟨lane, hlane, htwice⟩ := List.map_eq_singleton_iff.mp hlanes
  have hsub : [sampleHeader.bytes, sampleHeader.bytes].Sublist lane.rig.sentHeaders :=
    replicate_sublist_iff.mpr htwice.ge
  exact ⟨sys, lane, hexec, hlane, hsub, fun hnodup => List.nodup_iff_sublist.mp hnodup _ hsub⟩

end Otedama.Engine
