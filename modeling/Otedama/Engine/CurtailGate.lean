import Otedama.Engine.System
import Otedama.Framework.Fairness

/-! # The curtailment gate

The price goroutine of `Run` raises a shared gate when the BTC price falls
below `curtail_below_btc_usd` and then idles the workers one by one. The
session loop looks at the gate once, before the calls of `SetWork` of a
turn, and not again between them: calls that were decided while the gate
was down still land after it has been raised, also on workers that the
sweep has already passed.

`Gated` puts the gate and the price goroutine beside the engine of
`System`. Hashing is really stopped in every run in which such late calls
reach only workers that the sweep has yet to come to. -/

namespace Otedama.Engine

open Miner Stratum Poolproto List Option

/-! ## The price goroutine -/

/-- The decision about the gate: its next state and whether it changed. A
price that is not fresh never changes the gate, and a threshold of zero
disables curtailment. -/
def curtailDecision (curr : Bool) (rate : ℚ) (fresh : Bool) (threshold : ℚ) : Bool × Bool :=
  if threshold ≤ 0 ∨ fresh = false ∨ rate ≤ 0 then (curr, false)
  else if rate < threshold ∧ curr = false then (true, true)
  else if threshold ≤ rate ∧ curr = true then (false, true)
  else (curr, false)

/-- A decision that changes the gate flips it. -/
theorem curtailDecision_changed {curr fresh next : Bool} {rate threshold : ℚ}
    (h : curtailDecision curr rate fresh threshold = (next, true)) : curr = !next := by
  unfold curtailDecision at h
  split at h
  · simp at h
  · split at h
    · next hraise =>
      obtain ⟨rfl, -⟩ := Prod.mk.inj h
      exact hraise.2
    · split at h
      · next hlower =>
        obtain ⟨rfl, -⟩ := Prod.mk.inj h
        exact hlower.2
      · simp at h

/-- Where the price goroutine is. -/
inductive PricePhase where
  /-- In its `select`. -/
  | waiting
  /-- About to store a new value into the gate. -/
  | storing (next : Bool)
  /-- About to call `SetWork(nil)` on the given workers. -/
  | sweeping (left : List Nat)
  deriving DecidableEq, Repr

/-- The workers that the sweep has yet to come to. -/
def PricePhase.pending : PricePhase → List Nat
  | .sweeping left => left
  | _ => []

/-- The engine with the gate and the price goroutine. -/
structure Gated where
  sys : System
  gate : Bool
  price : PricePhase

/-- An engine that has just been started: the gate is down. -/
def Gated.start (cfgs : List WorkerConfig) (m : ShareMetrics) : Gated where
  sys := System.start cfgs m
  gate := false
  price := .waiting

inductive GatedMove where
  /-- A step of anything but the price goroutine. -/
  | engine (move : Move)
  /-- The ticker fires: load the gate and decide. -/
  | tick (rate : ℚ) (fresh : Bool)
  /-- `curtailGate.Store(next)`. -/
  | store
  /-- `SetWork(nil)` on the next worker of the sweep. -/
  | sweep

/-- What a turn of the session loop reads as `isCurtailed()` is the gate. -/
def Move.readsGate (gate : Bool) : Move → Bool
  | .turnV2 env _ => env.curtailed == gate
  | .turnV1 env _ => env.curtailed == gate
  | .takeShare env => env.curtailed == gate
  | _ => true

section

variable (sha256 : List UInt8 → Bytes32) (threshold : ℚ)

def Gated.next (g : Gated) : GatedMove → Option Gated
  | .engine move =>
      if move.readsGate g.gate then
        (g.sys.next sha256 move).map fun sys => { g with sys := sys }
      else none
  | .tick rate fresh =>
      match g.price with
      | .waiting =>
          let decision := curtailDecision g.gate rate fresh threshold
          some { g with price := if decision.2 then .storing decision.1 else .waiting }
      | _ => none
  | .store =>
      match g.price with
      | .storing next =>
          some { g with
            gate := next
            price := if next then .sweeping (List.range g.sys.lanes.length) else .waiting }
      | _ => none
  | .sweep =>
      match g.price with
      | .sweeping [] => some { g with price := .waiting }
      | .sweeping (i :: left) =>
          (g.sys.moveRig sha256 i (.setWork none)).map fun sys =>
            { g with sys := sys, price := .sweeping left }
      | _ => none

/-- The gated engine as a labelled step system. -/
def gatedEngine : LTS Gated GatedMove where
  next := Gated.next sha256 threshold

end

/-! ## Who gives a worker work -/

section

variable {sha256 : List UInt8 → Bytes32} {sys sys' : System} {i : Nat} {issue : Issue}

/-- Worker `i` has been given `issue`. -/
def System.WorksOn (sys : System) (i : Nat) (issue : Issue) : Prop :=
  ∃ lane, sys.lanes[i]? = some lane ∧ lane.rig.worker.work = some issue

theorem System.WorksOn.lt_length (h : sys.WorksOn i issue) : i < sys.lanes.length := by
  obtain ⟨lane, hlane, -⟩ := h
  exact (List.getElem?_eq_some_iff.mp hlane).1

/-- Replacing a lane gives no worker work unless the new lane has it. -/
theorem System.WorksOn.of_set {j : Nat} {lane : Lane}
    (h : { sys with lanes := sys.lanes.set j lane }.WorksOn i issue) :
    (i ≠ j ∧ sys.WorksOn i issue) ∨
      (i = j ∧ i < sys.lanes.length ∧ lane.rig.worker.work = some issue) := by
  have hlt : i < sys.lanes.length := by simpa using h.lt_length
  obtain ⟨lane', hlane', hwork⟩ := h
  by_cases hij : i = j
  · subst hij
    rw [getElem?_set_self hlt] at hlane'
    obtain rfl := some.inj hlane'
    exact .inr ⟨rfl, hlt, hwork⟩
  · rw [getElem?_set_ne (Ne.symm hij)] at hlane'
    exact .inl ⟨hij, lane', hlane', hwork⟩

/-- A move of one worker gives it work only if it is a `SetWork` with that
work; the other workers keep theirs. -/
theorem System.moveRig_worksOn {j : Nat} {move : RigMove Issue}
    (h : sys.moveRig sha256 j move = some sys') (hworks : sys'.WorksOn i issue) :
    (sys.WorksOn i issue ∧ (i = j → ∀ work, move ≠ .setWork work)) ∨
      (i = j ∧ move = .setWork (some issue)) := by
  obtain ⟨lane, rig, hlane, hrig, rfl⟩ := System.moveRig_eq_some h
  rcases System.WorksOn.of_set hworks with ⟨hne, hold⟩ | ⟨rfl, -, hwork⟩
  · exact .inl ⟨hold, fun heq => absurd heq hne⟩
  · cases move with
    | setWork work =>
      obtain rfl := some.inj hrig
      obtain rfl : work = some issue := hwork
      exact .inr ⟨rfl, rfl⟩
    | _ =>
      have hsame : rig.worker = lane.rig.worker := by
        unfold Rig.next at hrig
        grind [Rig.hashOne]
      refine .inl ⟨⟨lane, hlane, ?_⟩, fun _ work => by simp⟩
      rw [← hsame]
      exact hwork

/-- A step of the engine gives worker `i` work only if it is the call of
`SetWork` that the session goroutine has pending next. -/
theorem System.next_worksOn {move : Move} (h : sys.next sha256 move = some sys')
    (hworks : sys'.WorksOn i issue) :
    sys.WorksOn i issue ∨ (move = .setWork ∧ sys.todo.head? = some (i, some issue)) := by
  cases System.next_stepped h with
  | takeShare _ _ hdeliver =>
    obtain ⟨session, log, rfl, -⟩ := System.deliver_eq_some hdeliver
    exact .inl hworks
  | @setWork _ j work todo htodo hrig =>
    rcases System.moveRig_worksOn hrig hworks with ⟨hold, -⟩ | ⟨rfl, hset⟩
    · exact .inl hold
    · obtain rfl := RigMove.setWork.inj hset
      exact .inr ⟨rfl, by rw [htodo]; rfl⟩
  | idle hrig | reload hrig | hash hrig =>
    rcases System.moveRig_worksOn hrig hworks with ⟨hold, -⟩ | ⟨-, hset⟩
    · exact .inl hold
    · cases hset
  | @pickUp j rig share shares hlane =>
    rcases System.WorksOn.of_set hworks with ⟨-, hold⟩ | ⟨rfl, -, hwork⟩
    · exact .inl hold
    · exact .inl ⟨_, hlane, hwork⟩
  | @putDown j rig share hlane =>
    have hworks' : { sys with
        lanes := sys.lanes.set j { rig := rig, slot := none } }.WorksOn i issue := hworks
    rcases System.WorksOn.of_set hworks' with ⟨-, hold⟩ | ⟨rfl, -, hwork⟩
    · exact .inl hold
    · exact .inl ⟨_, hlane, hwork⟩
  | _ => exact .inl hworks

end

/-! ## The gate holds -/

/-- While the gate is raised, the session goroutine gives work only to workers
that the sweep has yet to come to. -/
def Ahead (g : Gated) : GatedMove → Prop
  | .engine .setWork => g.gate = true →
      ∀ call ∈ g.sys.todo.head?, call.2 = none ∨ call.1 ∈ g.price.pending
  | _ => True

instance (g : Gated) : ∀ move, Decidable (Ahead g move)
  | .engine .setWork => inferInstanceAs (Decidable (g.gate = true →
      ∀ call ∈ g.sys.todo.head?, call.2 = none ∨ call.1 ∈ g.price.pending))
  | .engine (.startV2 ..) | .engine (.startV1 ..) | .engine (.turnV2 ..) | .engine (.turnV1 ..)
  | .engine (.takeShare ..) | .engine .reconnect | .engine (.idle ..) | .engine (.reload ..)
  | .engine (.hash ..) | .engine (.pickUp ..) | .engine (.putDown ..)
  | .tick .. | .store | .sweep => .isTrue trivial

/-- The gate is raised and the sweep is over. -/
def Gated.Curtailed (g : Gated) : Prop :=
  g.gate = true ∧ g.price.pending = []

structure Gated.Inv (g : Gated) : Prop where
  /-- Only the price goroutine writes the gate, so what it is about to store
      differs from what it has loaded. -/
  storing : ∀ next, g.price = .storing next → g.gate = !next
  /-- A worker that still has work is ahead of the sweep. -/
  ahead : g.gate = true → ∀ i issue, g.sys.WorksOn i issue → i ∈ g.price.pending

section

variable {sha256 : List UInt8 → Bytes32} {threshold : ℚ} {g g' : Gated}

theorem Gated.Inv.start (cfgs : List WorkerConfig) (m : ShareMetrics) :
    (Gated.start cfgs m).Inv where
  storing := fun next h => by cases h
  ahead := fun h => by cases h

theorem Gated.Inv.engine {move : Move} {sys : System} (hinv : g.Inv)
    (hahead : Ahead g (.engine move)) (h : g.sys.next sha256 move = some sys) :
    { g with sys := sys }.Inv where
  storing := hinv.storing
  ahead := by
    intro hgate i issue hworks
    rcases System.next_worksOn h hworks with hold | ⟨rfl, hhead⟩
    · exact hinv.ahead hgate i issue hold
    · rcases hahead hgate _ hhead with hnone | hpending
      · cases hnone
      · exact hpending

theorem Gated.Inv.tick (hinv : g.Inv) (hwaiting : g.price = .waiting) (rate : ℚ) (fresh : Bool) :
    Gated.Inv { g with
      price := if (curtailDecision g.gate rate fresh threshold).2
        then .storing (curtailDecision g.gate rate fresh threshold).1 else .waiting } := by
  have hnone : ∀ i issue, g.gate = true → ¬ g.sys.WorksOn i issue := by
    intro i issue hgate hworks
    have hmem := hinv.ahead hgate i issue hworks
    rw [hwaiting] at hmem
    cases hmem
  refine ⟨?_, fun hgate i issue hworks => absurd hworks (hnone i issue hgate)⟩
  intro next hnext
  by_cases hchanged : (curtailDecision g.gate rate fresh threshold).2 = true
  · obtain rfl := PricePhase.storing.inj ((if_pos hchanged).symm.trans hnext)
    exact curtailDecision_changed (Prod.ext rfl hchanged)
  · cases (if_neg hchanged).symm.trans hnext

/-- A raised gate starts a sweep over all workers. -/
theorem Gated.Inv.store (next : Bool) : Gated.Inv { g with
    gate := next
    price := if next then .sweeping (range g.sys.lanes.length) else .waiting } where
  storing := by
    intro next' h
    cases next <;> cases h
  ahead := by
    intro hgate i issue hworks
    have hraised : next = true := hgate
    subst hraised
    exact mem_range.mpr hworks.lt_length

theorem Gated.Inv.sweep {i : Nat} {left : List Nat} {sys : System} (hinv : g.Inv)
    (hprice : g.price = .sweeping (i :: left))
    (h : g.sys.moveRig sha256 i (.setWork none) = some sys) :
    { g with sys := sys, price := .sweeping left }.Inv where
  storing := fun next h => by cases h
  ahead := by
    intro hgate j issue hworks
    rcases System.moveRig_worksOn h hworks with ⟨hold, hnot⟩ | ⟨-, hset⟩
    · have hmem := hinv.ahead hgate j issue hold
      rw [hprice] at hmem
      -- Worker `i` has just been idled.
      rcases mem_cons.mp hmem with rfl | hleft
      · exact absurd rfl (hnot rfl none)
      · exact hleft
    · cases hset

theorem Gated.Inv.next {move : GatedMove} (hinv : g.Inv) (hahead : Ahead g move)
    (h : g.next sha256 threshold move = some g') : g'.Inv := by
  cases move with
  | engine move =>
    simp only [Gated.next] at h
    split at h
    · obtain ⟨sys, hsys, rfl⟩ := map_eq_some_iff.mp h
      exact hinv.engine hahead hsys
    · cases h
  | tick rate fresh =>
    simp only [Gated.next] at h
    split at h
    · next hwaiting =>
      obtain rfl := some.inj h
      exact hinv.tick hwaiting rate fresh
    · cases h
  | store =>
    simp only [Gated.next] at h
    split at h
    · obtain rfl := some.inj h
      exact Gated.Inv.store _
    · cases h
  | sweep =>
    simp only [Gated.next] at h
    split at h
    · next hprice =>
      obtain rfl := some.inj h
      refine Gated.Inv.mk (fun next hnext => ?_) fun hgate i issue hworks => ?_
      · cases hnext
      have hmem := hinv.ahead hgate i issue hworks
      rw [hprice] at hmem
      exact hmem
    · next hprice =>
      obtain ⟨sys, hsys, rfl⟩ := map_eq_some_iff.mp h
      exact hinv.sweep hprice hsys
    · cases h

end

/-- **The gate stops hashing**: in every run in which the calls of `SetWork`
that land after the gate was raised are ahead of the sweep, no worker has
work once the sweep is over, whether the session loop is between two
events or in the middle of a turn. -/
theorem curtailed_workers_idle (sha256 : List UInt8 → Bytes32) (threshold : ℚ)
    (cfgs : List WorkerConfig) (m : ShareMetrics) (g : Gated)
    (hreach : (gatedEngine sha256 threshold).Reach Ahead (Gated.start cfgs m) g)
    (hcurtailed : g.Curtailed) :
    ∀ lane ∈ g.sys.lanes, lane.rig.worker.work = none := by
  have hinv : g.Inv := hreach.invariant (Gated.Inv.start cfgs m)
    fun s move s' hinv hahead hnext => hinv.next hahead hnext
  intro lane hlane
  by_contra hworks
  obtain ⟨issue, hissue⟩ := Option.ne_none_iff_exists'.mp hworks
  obtain ⟨i, hi⟩ := List.mem_iff_getElem?.mp hlane
  have hmem := hinv.ahead hcurtailed.1 i issue ⟨lane, hi, hissue⟩
  rw [hcurtailed.2] at hmem
  cases hmem

/-- A job is under way to the only worker when the price falls to 40 000, with
the threshold at 50 000. The call of `SetWork` lands after the gate has
been raised and before the sweep. -/
def lateCallAhead : List GatedMove :=
  [.engine (.startV2 sampleOpts easyTarget),
   .engine (.turnV2 calmEnv (.poolMsg (.newMiningJob sampleJob))),
   .engine (.turnV2 calmEnv (.poolMsg (.setNewPrevHash sampleTip))),
   .tick 40000 true, .store, .engine .setWork, .sweep, .sweep]

theorem lateCallAhead_idle : ∃ g,
    (gatedEngine (fun _ => Bytes.zero32) 50000).exec (Gated.start [sampleConfig] zeroMetrics)
      lateCallAhead = some g ∧ g.Curtailed ∧ g.sys.todo = [] ∧ g.sys.lanes.length = 1 ∧
    ∀ lane ∈ g.sys.lanes, lane.rig.worker.work = none := by
  have hend : ((gatedEngine (fun _ => Bytes.zero32) 50000).exec
      (Gated.start [sampleConfig] zeroMetrics) lateCallAhead).map
        (fun g => (g.gate, g.price, g.sys.todo.isEmpty, g.sys.lanes.length)) =
      some (true, .waiting, true, 1) := by decide
  obtain ⟨g, hexec, hg⟩ := Option.map_eq_some_iff.mp hend
  obtain ⟨hgate, hprice, htodo, hlength⟩ : g.gate = true ∧ g.price = .waiting ∧
      g.sys.todo = [] ∧ g.sys.lanes.length = 1 := by simpa using hg
  have hcurtailed : g.Curtailed := ⟨hgate, by rw [hprice]; rfl⟩
  have hreach := LTS.Reach.init.exec (C := Ahead) lateCallAhead (by decide) hexec
  exact ⟨g, hexec, hcurtailed, htodo, hlength,
    curtailed_workers_idle _ _ _ _ g hreach hcurtailed⟩

/-- The same call lands after the sweep. -/
def lateCallBehind : List GatedMove :=
  [.engine (.startV2 sampleOpts easyTarget),
   .engine (.turnV2 calmEnv (.poolMsg (.newMiningJob sampleJob))),
   .engine (.turnV2 calmEnv (.poolMsg (.setNewPrevHash sampleTip))),
   .tick 40000 true, .store, .sweep, .sweep, .engine .setWork]

/-- The worker grinds on although the gate is raised and the sweep is over. -/
theorem lateCallBehind_keeps_hashing : ∃ g,
    (gatedEngine (fun _ => Bytes.zero32) 50000).exec (Gated.start [sampleConfig] zeroMetrics)
      lateCallBehind = some g ∧ g.Curtailed ∧ g.sys.todo = [] ∧
    ∃ lane ∈ g.sys.lanes, lane.rig.worker.work ≠ none := by
  have hend : ((gatedEngine (fun _ => Bytes.zero32) 50000).exec
      (Gated.start [sampleConfig] zeroMetrics) lateCallBehind).map
        (fun g => (g.gate, g.price, g.sys.todo.isEmpty,
          g.sys.lanes.any fun lane => lane.rig.worker.work.isSome)) =
      some (true, .waiting, true, true) := by decide
  obtain ⟨g, hexec, hg⟩ := Option.map_eq_some_iff.mp hend
  obtain ⟨hgate, hprice, htodo, hany⟩ : g.gate = true ∧ g.price = .waiting ∧
      g.sys.todo = [] ∧ (g.sys.lanes.any fun lane => lane.rig.worker.work.isSome) = true := by
    simpa only [Prod.mk.injEq, List.isEmpty_iff] using hg
  obtain ⟨lane, hlane, hsome⟩ := List.any_eq_true.mp hany
  refine ⟨g, hexec, ⟨hgate, by rw [hprice]; rfl⟩, htodo, lane, hlane, ?_⟩
  intro hnone
  rw [hnone] at hsome
  cases hsome

/-! ## The gate and the price -/

/-- What the prices seen so far ask for: the last one that can be trusted
decides. -/
def priceVerdict (threshold : ℚ) (verdict : Bool) : GatedMove → Bool
  | .tick rate fresh =>
      if threshold ≤ 0 ∨ fresh = false ∨ rate ≤ 0 then verdict else decide (rate < threshold)
  | _ => verdict

/-- What the gate is about to be. -/
def Gated.intended (g : Gated) : Bool :=
  match g.price with
  | .storing next => next
  | _ => g.gate

theorem Gated.next_intended {sha256 : List UInt8 → Bytes32} {threshold : ℚ} {g g' : Gated}
    {move : GatedMove} (h : g.next sha256 threshold move = some g') :
    g'.intended = priceVerdict threshold g.intended move := by
  unfold Gated.next at h
  unfold Gated.intended
  cases move with
  | engine move =>
    dsimp only at h
    split at h
    · obtain ⟨sys, -, rfl⟩ := map_eq_some_iff.mp h
      rfl
    · cases h
  | tick rate fresh =>
    dsimp only at h
    split at h
    · next hwaiting =>
      obtain rfl := some.inj h
      -- A decision that changes nothing is no decision.
      simp only [hwaiting, priceVerdict, curtailDecision]
      grind
    · cases h
  | store =>
    dsimp only at h
    split at h
    · next next _ =>
      obtain rfl := some.inj h
      cases next <;> rfl
    · cases h
  | sweep =>
    dsimp only at h
    split at h
    · next hsweep =>
      obtain rfl := some.inj h
      simp only [hsweep, priceVerdict]
    · next hsweep =>
      obtain ⟨sys, -, rfl⟩ := map_eq_some_iff.mp h
      simp only [hsweep, priceVerdict]
    · cases h

/-- However the price goroutine interleaves with sessions and workers, when it
is not about to write the gate, the gate is what the last trusted price
asks for. -/
theorem gate_follows_price {sha256 : List UInt8 → Bytes32} {threshold : ℚ}
    {cfgs : List WorkerConfig} {m : ShareMetrics} {moves : List GatedMove} {g : Gated}
    (h : (gatedEngine sha256 threshold).exec (Gated.start cfgs m) moves = some g)
    (hstored : ∀ next, g.price ≠ .storing next) :
    g.gate = moves.foldl (priceVerdict threshold) false := by
  have hintended : g.intended = moves.foldl (priceVerdict threshold) false := by
    refine (gatedEngine sha256 threshold).exec_history (P := fun hist g =>
      g.intended = hist.foldl (priceVerdict threshold) false) rfl ?_ moves h
    intro hist g move g' _ ih hnext
    rw [Gated.next_intended hnext, ih, foldl_append]
    rfl
  rw [← hintended]
  unfold Gated.intended
  split
  · next next hprice => exact absurd hprice (hstored next)
  · rfl

theorem gate_follows_price_raised : ∃ g,
    (gatedEngine (fun _ => Bytes.zero32) 50000).exec (Gated.start [sampleConfig] zeroMetrics)
      [.tick 40000 true, .store, .sweep, .sweep, .tick 60000 false] = some g ∧ g.gate = true := by
  have hend : ((gatedEngine (fun _ => Bytes.zero32) 50000).exec
      (Gated.start [sampleConfig] zeroMetrics)
      [.tick 40000 true, .store, .sweep, .sweep, .tick 60000 false]).map (·.price) =
      some .waiting := by decide
  obtain ⟨g, hexec, hprice⟩ := Option.map_eq_some_iff.mp hend
  refine ⟨g, hexec, (gate_follows_price hexec fun next => ?_).trans (by decide)⟩
  rw [hprice]
  exact PricePhase.noConfusion

end Otedama.Engine
