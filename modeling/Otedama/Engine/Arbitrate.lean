import Otedama.Arbitration.Decide
import Otedama.Engine.SessionV1
import Otedama.Framework.Heap

/-! # The arbitration loop

`runArbitrationLoop` folds the quotes of the providers into a map of live
streams and, on a fixed tick, expires what has not been quoted for a
while, merges the entries of each provider, calls `Decide` and applies
the allocation to the workers.

The maps `YieldPerDevice` live on a heap, since entries of the stream map
and the merged streams may share them. Log lines, gauges and the activity
map of the dashboard are not modelled. -/

namespace Otedama.Engine

open Arbitration Miner Stratum Poolproto

/-! ## Quotes and streams -/

/-- `strings.HasPrefix(s, pre)`. -/
def hasPrefix (s pre : String) : Bool := pre.toList.isPrefixOf s.toList

def miningStreamPrefix : String := "mining."

/-- The stream is executed by SHA256d grinding. -/
def isMining (stream : String) : Bool := hasPrefix stream miningStreamPrefix

/-- `provider.Quote`. Times are in nanoseconds; 0 is the zero time. -/
structure Quote where
  providerID : String
  /-- Empty: the quote applies to any compatible device. -/
  deviceID : String
  satsPerSecond : ℚ
  netSatsPerSecond : ℚ
  confidence : ℚ
  /-- `none`: all families are accepted. -/
  acceptedFamilies : Option (List Family)
  at_ : Nat
  deriving DecidableEq, Repr

/-- What arbitration compares: the net yield, or the gross one where the
provider states no fee. -/
def Quote.yield (q : Quote) : Yield where
  satsPerSecond := if q.netSatsPerSecond ≤ 0 then q.satsPerSecond else q.netSatsPerSecond
  confidence := q.confidence

def allDeviceFamilies : List Family := [.asic, .gpu, .cpu]

def Quote.families (q : Quote) : List Family := q.acceptedFamilies.getD allDeviceFamilies

/-- The maps `YieldPerDevice`. -/
abbrev YieldHeap := Heap (GoMap String Yield)

/-- An `arbitration.Stream` as the stream map holds it: `YieldPerDevice` is a
reference. It is never nil, since `updateStream` makes the map before it
stores an entry. No quote sets the ratings. -/
structure Entry where
  id : String
  acceptsFamilies : List Family
  yieldPerDevice : Ref
  defaultYield : Yield
  isBitcoinMining : Bool
  deriving DecidableEq, Repr

/-- The stream that `Decide` sees. -/
def Entry.resolve (heap : YieldHeap) (e : Entry) : Stream where
  id := e.id
  acceptsFamilies := e.acceptsFamilies
  yieldPerDevice := heap.read e.yieldPerDevice
  defaultYield := e.defaultYield
  privacyRating := 0
  environmentalRating := 0
  isBitcoinMining := e.isBitcoinMining

@[simp] theorem Entry.resolve_id (heap : YieldHeap) (e : Entry) : (e.resolve heap).id = e.id := rfl

/-! ## The stream map -/

/-- The live streams and when each was quoted last. -/
structure Store where
  heap : YieldHeap
  streamMap : GoMap String Entry
  lastQuoteAt : GoMap String Nat

def Store.empty : Store where
  heap := Heap.empty
  streamMap := ∅
  lastQuoteAt := ∅

/-- The key of a provider's entry for a device. -/
def streamKey (providerID deviceID : String) : String := providerID ++ ":" ++ deviceID

def Quote.key (q : Quote) : String := streamKey q.providerID q.deviceID

/-- `existing.YieldPerDevice`, made if there is no entry yet. -/
def existingYields (heap : YieldHeap) (m : GoMap String Entry) (key : String) : YieldHeap × Ref :=
  match m.lookup key with
  | some e => (heap, e.yieldPerDevice)
  | none => (heap.alloc ∅, heap.size)

/-- The entry that a quote leaves. A quote for one device must not become the
default for the others. -/
def updatedEntry (heap : YieldHeap) (m : GoMap String Entry) (q : Quote) : Entry where
  id := q.providerID
  acceptsFamilies := q.families
  yieldPerDevice := (existingYields heap m q.key).2
  defaultYield :=
    if q.deviceID ≠ "" then ((m.lookup q.key).map Entry.defaultYield).getD Yield.zero
    else q.yield
  isBitcoinMining := isMining q.providerID

/-- Fold one quote into the stream map. -/
def updateStream (heap : YieldHeap) (m : GoMap String Entry) (q : Quote) :
    YieldHeap × GoMap String Entry :=
  let made := existingYields heap m q.key
  let heap' :=
    if q.deviceID ≠ "" then
      made.1.write made.2 ((made.1.read made.2).insert q.deviceID q.yield)
    else made.1
  (heap', m.insert q.key (updatedEntry heap m q))

/-- A quote that bears no time, or one from the future, counts as fresh. -/
def quoteFreshness (at_ now : Nat) : Nat := if at_ = 0 ∨ now < at_ then now else at_

/-- Three minutes. -/
def streamStaleTimeout : Nat := 3 * 60 * 10 ^ 9

/-- The keys that have not been quoted for too long. -/
def staleKeys (seen : GoMap String Nat) (now : Nat) : List String :=
  seen.keys.filter fun key => (seen.lookup key).any fun ts => streamStaleTimeout < now - ts

/-- Drop stale streams from the map and from the ledger. -/
def pruneStaleStreams (m : GoMap String Entry) (seen : GoMap String Nat) (now : Nat) :
    GoMap String Entry × GoMap String Nat :=
  (GoMap.deleteAll (staleKeys seen now) m, GoMap.deleteAll (staleKeys seen now) seen)

/-- One turn of the merging loop: an entry whose stream has been met before
adds its yields to the representative; the first one becomes it. -/
def mergeEntry (acc : YieldHeap × GoMap String Entry) (s : Entry) :
    YieldHeap × GoMap String Entry :=
  match acc.2.lookup s.id with
  | some rep =>
      let yields := GoMap.copy (acc.1.read rep.yieldPerDevice) (acc.1.read s.yieldPerDevice)
      (acc.1.write rep.yieldPerDevice yields,
       acc.2.insert s.id { rep with
        defaultYield :=
          if rep.defaultYield = Yield.zero then s.defaultYield else rep.defaultYield })
  | none =>
      let yields := acc.1.read s.yieldPerDevice
      -- The map is copied only if there is something in it.
      if 0 < GoMap.len yields then
        (acc.1.alloc (GoMap.copy ∅ yields),
         acc.2.insert s.id { s with yieldPerDevice := acc.1.size })
      else (acc.1, acc.2.insert s.id s)

/-- Flatten the stream map, merging the entries of each stream. `o` and `o'`
are the orders in which the two loops visit their maps. -/
def streamsSlice (heap : YieldHeap) (m : GoMap String Entry) (o o' : GoMap.RangeOrder String) :
    YieldHeap × List Stream :=
  let merged := (GoMap.values o m).foldl mergeEntry (heap, ∅)
  (merged.1, (GoMap.values o' merged.2).map (Entry.resolve merged.1))

/-! ## Pauses and allocations -/

/-- The devices that arbitration has paused. -/
abbrev PauseSet := List String

def PauseSet.pause (p : PauseSet) (deviceID : String) : PauseSet :=
  if deviceID ∈ p then p else deviceID :: p

def PauseSet.resume (p : PauseSet) (deviceID : String) : PauseSet :=
  p.filter fun id => id ≠ deviceID

/-- The assignment takes the device off mining. -/
def offMining (a : Assignment) : Bool := a.idle || !isMining a.stream

def reconcileOne (p : PauseSet) (a : Assignment) : PauseSet :=
  if offMining a then p.pause a.deviceID else p.resume a.deviceID

/-- Pause exactly the devices that are off mining. -/
def reconcileArbPauses (alloc : Allocation) (p : PauseSet) : PauseSet :=
  alloc.assignments.foldl reconcileOne p

/-- `SetWork(nil)` on the workers of a device. -/
def pauseDevice (deviceID : String) (workers : List (Worker Work)) : List (Worker Work) :=
  workers.map fun w => if w.deviceID = deviceID then w.setWork none else w

/-- What an assignment does to the workers. -/
def applyAssignment (workers : List (Worker Work)) (a : Assignment) : List (Worker Work) :=
  if a.idle then pauseDevice a.deviceID workers
  else if a.switchedFromID ≠ "" then
    let wasMining := isMining a.switchedFromID
    let nowMining := isMining a.stream
    if wasMining && !nowMining then pauseDevice a.deviceID workers else workers
  else workers

def applyAllocation (alloc : Allocation) (workers : List (Worker Work)) : List (Worker Work) :=
  alloc.assignments.foldl applyAssignment workers

/-! ## The tick -/

/-- The options of the loop that a decision depends on. -/
structure ArbitrationOpts where
  devRefs : List DeviceRef
  hysteresisPct : ℚ
  minYield : ℚ
  powerWatts : ℚ
  powerPricePerKWh : ℚ

def defaultHysteresisPct : ℚ := 5 / 100

/-- `provider.SatsPerSecond`. -/
def satsPerSecond (usdPerHour btcUSDRate : ℚ) : ℚ :=
  if btcUSDRate ≤ 0 ∨ usdPerHour ≤ 0 then 0 else usdPerHour / btcUSDRate * 10 ^ 8 / 3600

/-- The share of one device in the power cost; `rate` is 0 where there is no
price source. -/
def powerFloor (opts : ArbitrationOpts) (rate : ℚ) : ℚ :=
  if 0 < opts.powerWatts ∧ 0 < opts.powerPricePerKWh ∧ opts.devRefs ≠ [] ∧ 0 < rate then
    satsPerSecond (opts.powerWatts / 1000 * opts.powerPricePerKWh) rate / opts.devRefs.length
  else 0

/-- `cmp.Or(opts.hysteresisPct, defaultHysteresisPct)`. -/
def margin (opts : ArbitrationOpts) : ℚ :=
  if opts.hysteresisPct = 0 then defaultHysteresisPct else opts.hysteresisPct

/-- The input of `Decide` on a tick. -/
def tickInput (opts : ArbitrationOpts) (streams : List Stream) (prevAlloc : Option Allocation)
    (rate : ℚ) : Input where
  devices := opts.devRefs
  streams := streams
  previous := prevAlloc
  policy := .maximizeEarnings
  hysteresisMargin := margin opts
  minYieldSatsPerSec :=
    if opts.minYield < powerFloor opts rate then powerFloor opts rate else opts.minYield

/-- Expire stale streams, then flatten the rest. -/
def Store.tick (store : Store) (now : Nat) (o o' : GoMap.RangeOrder String) :
    Store × List Stream :=
  let pruned := pruneStaleStreams store.streamMap store.lastQuoteAt now
  let slice := streamsSlice store.heap pruned.1 o o'
  ({ heap := slice.1, streamMap := pruned.1, lastQuoteAt := pruned.2 }, slice.2)

/-- A quote arrives. -/
def Store.fold (store : Store) (now : Nat) (q : Quote) : Store :=
  let updated := updateStream store.heap store.streamMap q
  { heap := updated.1
    streamMap := updated.2
    lastQuoteAt := store.lastQuoteAt.insert q.key (quoteFreshness q.at_ now) }

/-- The loop's variables together with what it shares with the sessions. -/
structure ArbLoop where
  store : Store
  prevAlloc : Option Allocation
  paused : PauseSet
  workers : List (Worker Work)

/-- One arbitration interval. When `Decide` fails, the previous allocation
stays in force. -/
def arbitrationTick (opts : ArbitrationOpts) (l : ArbLoop) (now : Nat)
    (o o' : GoMap.RangeOrder String) (rate : ℚ) : ArbLoop :=
  let ticked := l.store.tick now o o'
  match (tickInput opts ticked.2 l.prevAlloc rate).decide with
  | .error _ => { l with store := ticked.1 }
  | .ok alloc =>
      { store := ticked.1
        prevAlloc := some alloc
        paused := reconcileArbPauses alloc l.paused
        workers := applyAllocation alloc l.workers }

/-- A provider's offer that is open to all families and bears no time. -/
def sampleQuote (providerID deviceID : String) (satsPerSecond : ℚ) : Quote where
  providerID := providerID
  deviceID := deviceID
  satsPerSecond := satsPerSecond
  netSatsPerSecond := 0
  confidence := 1
  acceptedFamilies := none
  at_ := 0

end Otedama.Engine
