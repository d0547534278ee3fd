import Otedama.Engine.Connect

/-! # The reconnect loop

`runReconnectLoop` runs one session after the other. When a session ends
it goes to the next pool at once; after the last pool it goes to the next
payout address, unless the current one has ever worked; after the last
address it sleeps, longer each time. Pools that were found to waste
hashpower are left out until all of them have been.

* `reconnect_paced`: a working address is never given up, addresses are
  tried in order and only after a full pass over the pools, and the loop
  sleeps at least once every `n * m` attempts. -/

namespace Otedama.Engine

open List Nat

/-! ## Configuration -/

structure PoolConfig where
  url : String
  user : String
  password : String
  payoutScheme : String
  tlsCAFile : String
  deriving DecidableEq, Repr

/-- The part of the configuration that the loop reads. -/
structure Config where
  bitcoinAddress : String
  bitcoinAddresses : List String
  pools : List PoolConfig
  workerName : String
  deriving DecidableEq, Repr

def defaultPoolURL : String := "stratum+v2://stratum.braiins.com:3336"

/-- The pools in order of preference. -/
def poolURLs (cfg : Config) : List String :=
  if cfg.pools = [] then [defaultPoolURL] else cfg.pools.map PoolConfig.url

/-- The payout addresses in order, without empty and repeated ones. -/
def payoutAddresses (cfg : Config) : List String :=
  (cfg.bitcoinAddress :: cfg.bitcoinAddresses).foldl
    (fun addrs a => if a = "" ∨ a ∈ addrs then addrs else addrs ++ [a]) []

/-- The user name sent to the pool. -/
def sessionUser (poolUser addr worker : String) : String :=
  if poolUser ≠ "" then poolUser
  else if worker ≠ "" then addr ++ "." ++ worker
  else addr

/-- What a session is told about its pool and its address. -/
structure SessionArgs where
  poolURL : String
  user : String
  password : String
  tlsCAFile : String
  payoutAddr : String
  payoutScheme : String
  yieldFailover : Bool
  deriving DecidableEq, Repr

def sessionArgs (cfg : Config) (poolIdx addrIdx : Nat) : SessionArgs :=
  let pool := cfg.pools[poolIdx]?
  let poolUser := (pool.map PoolConfig.user).getD ""
  let addr := (payoutAddresses cfg)[addrIdx]?.getD ""
  { poolURL := (poolURLs cfg)[poolIdx]?.getD ""
    user := sessionUser poolUser addr cfg.workerName
    password := (pool.map PoolConfig.password).getD ""
    tlsCAFile := (pool.map PoolConfig.tlsCAFile).getD ""
    payoutAddr := if poolUser = "" then addr else ""
    payoutScheme := (pool.map PoolConfig.payoutScheme).getD ""
    yieldFailover := 1 < (poolURLs cfg).length }

/-! ## The loop -/

structure ReconnectOpts where
  config : Config
  /-- 0 means that there is no limit. -/
  maxReconnectAttempts : Nat

/-- The number of pools. -/
def ReconnectOpts.n (r : ReconnectOpts) : Nat := (poolURLs r.config).length

/-- The number of payout addresses. -/
def ReconnectOpts.m (r : ReconnectOpts) : Nat := (payoutAddresses r.config).length

/-- Why the loop returns. -/
inductive Stop where
  | canceled
  | fatal (e : SessionError)
  /-- `"engine: exceeded %d reconnect attempts"` -/
  | exceeded (limit : Nat)
  deriving DecidableEq, Repr

/-- The variables of the loop; `stopped` is set once it has returned. -/
structure Reconnect where
  poolIdx : Nat
  addrIdx : Nat
  /-- The active address has established a session. -/
  addrConnected : Bool
  attempt : Nat
  backoff : Nat
  /-- The pools that carry a degradation mark. -/
  yieldDegradedPools : List Nat
  stopped : Option Stop

/-- One second, in nanoseconds. -/
def reconnectBackoffInitial : Nat := 10 ^ 9

def reconnectBackoffMax : Nat := 64 * 10 ^ 9

def reconnectBackoffJitterPct : Nat := 25

def Reconnect.start : Reconnect where
  poolIdx := 0
  addrIdx := 0
  addrConnected := false
  attempt := 0
  backoff := reconnectBackoffInitial
  yieldDegradedPools := []
  stopped := none

/-- When the context is canceled, seen from one turn of the loop. -/
inductive Cancel where
  | never
  | atHead
  | inSession
  | asleep
  deriving DecidableEq, Repr

/-- What happens during one turn of the loop. -/
structure Round where
  peer : Peer
  cancel : Cancel
  /-- What `rand.Int` draws; `none` if it fails. -/
  draw : Option Nat

/-- An attempt to run a session, and what came of it. -/
structure Attempt where
  poolIdx : Nat
  addrIdx : Nat
  args : SessionArgs
  outcome : Outcome
  deriving DecidableEq, Repr

/-- What the loop does. -/
inductive Action where
  | attempt (a : Attempt)
  | sleep (duration : Nat)
  deriving DecidableEq, Repr

/-- The delay, moved by up to a quarter in either direction. -/
def jitteredBackoff (d : Nat) (draw : Option Nat) : Nat :=
  let span := d * 2 * reconnectBackoffJitterPct / 100
  if span = 0 then d
  else
    match draw with
    | none => d
    | some k => d - d * reconnectBackoffJitterPct / 100 + k % span

/-- The walk of `nextFailoverPool`. It comes back to `start` within `n` steps,
so `n` is fuel enough. -/
def nextFailoverFrom (start n : Nat) (degraded : List Nat) : Nat → Nat → Nat
  | 0, next => next
  | fuel + 1, next =>
      let next := (next + 1) % n
      if next ∉ degraded ∨ next = start then next else nextFailoverFrom start n degraded fuel next

def nextFailoverPool (start n : Nat) (degraded : List Nat) : Nat :=
  nextFailoverFrom start n degraded n start

/-- Pool failover; the flag says that the next pool is tried at once. -/
def Reconnect.failoverPool (n : Nat) (s : Reconnect) : Reconnect × Bool :=
  if 1 < n then
    let next := nextFailoverPool s.poolIdx n s.yieldDegradedPools
    if next = s.poolIdx ∧ s.poolIdx ∈ s.yieldDegradedPools then
      -- Every pool is marked: forget the marks and start over.
      ({ s with poolIdx := 0, yieldDegradedPools := [] }, false)
    else ({ s with poolIdx := next }, s.poolIdx < next)
  else (s, false)

/-- Payout-address failover; the flag says that the next address is tried at
once. -/
def Reconnect.failoverAddress (m : Nat) (s : Reconnect) : Reconnect × Bool :=
  if s.addrConnected = false ∧ 1 < m then
    ({ s with addrIdx := (s.addrIdx + 1) % m, poolIdx := 0, addrConnected := false },
     (s.addrIdx + 1) % m ≠ 0)
  else (s, false)

/-- The sleep at the end of a turn. -/
def Reconnect.backOff (s : Reconnect) (round : Round) : Reconnect × List Action :=
  let slept := [Action.sleep (jitteredBackoff s.backoff round.draw)]
  if round.cancel = .asleep then ({ s with stopped := some .canceled }, slept)
  else
    ({ s with backoff := if s.backoff < reconnectBackoffMax then s.backoff * 2 else s.backoff },
     slept)

/-- What to do when the pass over the pools is complete. -/
def Reconnect.afterPools (r : ReconnectOpts) (s : Reconnect) (round : Round) :
    Reconnect × List Action :=
  let address := s.failoverAddress r.m
  if address.2 then (address.1, []) else address.1.backOff round

/-- Where to go after a session that was not fatal. -/
def Reconnect.failover (r : ReconnectOpts) (s : Reconnect) (round : Round) :
    Reconnect × List Action :=
  let pool := s.failoverPool r.n
  if pool.2 then (pool.1, []) else pool.1.afterPools r round

/-- What `onConnected` and the end of the session do to the variables. -/
def Reconnect.afterSession (s : Reconnect) (o : Outcome) : Reconnect :=
  { s with
    addrConnected := s.addrConnected || o.connected
    yieldDegradedPools :=
      if isYieldDegraded o.err then s.poolIdx :: s.yieldDegradedPools else s.yieldDegradedPools }

/-- The attempt that the loop makes next. -/
def Reconnect.attemptOf (r : ReconnectOpts) (s : Reconnect) (peer : Peer) : Attempt :=
  let args := sessionArgs r.config s.poolIdx s.addrIdx
  { poolIdx := s.poolIdx
    addrIdx := s.addrIdx
    args := args
    outcome := sessionOutcome args.poolURL peer }

/-- What the loop does when a session has ended with the outcome `o`. -/
def Reconnect.endSession (r : ReconnectOpts) (s : Reconnect) (round : Round) (o : Outcome) :
    Reconnect × List Action :=
  if round.cancel = .inSession then
    ({ s with addrConnected := s.addrConnected || o.connected, stopped := some .canceled }, [])
  else if isFatal o.err then ({ s.afterSession o with stopped := some (.fatal o.err) }, [])
  else
    { s.afterSession o with
      backoff := if o.connected then reconnectBackoffInitial else s.backoff }.failover r round

/-- One turn of the loop. -/
def Reconnect.step (r : ReconnectOpts) (s : Reconnect) (round : Round) :
    Reconnect × List Action :=
  if s.stopped.isSome then (s, [])
  else if round.cancel = .atHead then ({ s with stopped := some .canceled }, [])
  else
    let s := { s with attempt := s.attempt + 1 }
    if 0 < r.maxReconnectAttempts ∧ r.maxReconnectAttempts < s.attempt then
      ({ s with stopped := some (.exceeded r.maxReconnectAttempts) }, [])
    else
      let a := s.attemptOf r round.peer
      let next := s.endSession r round a.outcome
      (next.1, .attempt a :: next.2)

def reconnectLoop (r : ReconnectOpts) : Machine Reconnect Round Action where
  step := Reconnect.step r

/-- The attempts among the actions. -/
def attempts (actions : List Action) : List Attempt :=
  actions.filterMap fun
    | .attempt a => some a
    | .sleep _ => none

def Action.IsSleep : Action → Prop
  | .attempt _ => False
  | .sleep _ => True

/-! ## What a turn does -/

/-- **Walk rule.** The walk over the pools stops at the latest where it started,
so what holds where it stops and of every walk that goes on holds of it. -/
theorem failover_walk {start n : Nat} (hstart : start < n) (degraded : List Nat)
    {P : Nat → Nat → Prop}
    (hstop : ∀ fuel j, j < n → (start + (j + 1)) % n ∉ degraded ∨ (start + (j + 1)) % n = start →
      P (fuel + 1) j)
    (hgo : ∀ fuel j, ¬ ((start + (j + 1)) % n ∉ degraded ∨ (start + (j + 1)) % n = start) →
      P fuel (j + 1) → P (fuel + 1) j) : P n 0 := by
  suffices h : ∀ fuel j, fuel = n - j → j < n → P fuel j from h n 0 (by omega) (by omega)
  intro fuel
  induction fuel with
  | zero => intro j hfuel hj; omega
  | succ fuel ih =>
    intro j hfuel hj
    by_cases hstops : (start + (j + 1)) % n ∉ degraded ∨ (start + (j + 1)) % n = start
    · exact hstop fuel j hj hstops
    · refine hgo fuel j hstops (ih (j + 1) (by omega) ?_)
      by_contra hge
      obtain rfl : n = j + 1 := by omega
      exact hstops (.inr (by rw [add_mod_right, mod_eq_of_lt hstart]))

theorem nextFailoverFrom_succ (start n : Nat) (degraded : List Nat) (fuel j : Nat) :
    nextFailoverFrom start n degraded (fuel + 1) ((start + j) % n) =
      if (start + (j + 1)) % n ∉ degraded ∨ (start + (j + 1)) % n = start then
        (start + (j + 1)) % n
      else nextFailoverFrom start n degraded fuel ((start + (j + 1)) % n) := by
  rw [nextFailoverFrom, mod_add_mod, add_assoc]

/-- The walk stops at the first pool without a mark, or where it started. -/
theorem nextFailoverPool_spec {start n : Nat} (hstart : start < n) (degraded : List Nat) :
    ∃ k, 0 < k ∧ k ≤ n ∧ nextFailoverPool start n degraded = (start + k) % n ∧
      (∀ i, 0 < i → i < k → (start + i) % n ∈ degraded) ∧
      (nextFailoverPool start n degraded ∉ degraded ∨
        nextFailoverPool start n degraded = start) := by
  -- After `j` steps all pools so far were marked.
  have h := failover_walk hstart degraded (P := fun fuel j =>
    (∀ i, 0 < i → i ≤ j → (start + i) % n ∈ degraded) →
    ∃ k, 0 < k ∧ k ≤ n ∧
      nextFailoverFrom start n degraded fuel ((start + j) % n) = (start + k) % n ∧
      (∀ i, 0 < i → i < k → (start + i) % n ∈ degraded) ∧
      (nextFailoverFrom start n degraded fuel ((start + j) % n) ∉ degraded ∨
        nextFailoverFrom start n degraded fuel ((start + j) % n) = start)) ?_ ?_
    fun i hi hle => by omega
  · rw [add_zero, mod_eq_of_lt hstart] at h
    exact h
  · intro fuel j hj hstop hmarked
    rw [nextFailoverFrom_succ, if_pos hstop]
    exact ⟨j + 1, by omega, by omega, rfl, fun i hi hlt => hmarked i hi (by omega), hstop⟩
  · intro fuel j hgo ih hmarked
    rw [nextFailoverFrom_succ, if_neg hgo]
    refine ih fun i hi hle => ?_
    rcases Nat.lt_or_ge i (j + 1) with hlt | hge
    · exact hmarked i hi (by omega)
    · obtain rfl : i = j + 1 := by omega
      exact not_not.mp (not_or.mp hgo).1

/-- Without marks it is the next pool in order. -/
theorem nextFailoverPool_nil {start n : Nat} (hstart : start < n) :
    nextFailoverPool start n [] = (start + 1) % n := by
  obtain ⟨k, hpos, -, heq, hmarked, -⟩ := nextFailoverPool_spec hstart []
  obtain rfl : k = 1 := by
    by_contra hne
    exact absurd (hmarked 1 (by omega) (by omega)) (by simp)
  exact heq

/-- What pool failover leaves. -/
structure PoolFailover (n : Nat) (s s' : Reconnect) (again : Bool) : Prop where
  poolIdx : s'.poolIdx < n
  addrIdx : s'.addrIdx = s.addrIdx
  addrConnected : s'.addrConnected = s.addrConnected
  stopped : s'.stopped = s.stopped
  advance : again = true → s.poolIdx < s'.poolIdx
  /-- Without marks the pools are tried in order. -/
  fresh : s.yieldDegradedPools = [] → s'.yieldDegradedPools = [] ∧
    s'.poolIdx = (s.poolIdx + 1) % n ∧ (again = true ↔ s.poolIdx + 1 < n)

theorem failoverPool_spec {n : Nat} {s : Reconnect} (hpool : s.poolIdx < n) :
    PoolFailover n s (s.failoverPool n).1 (s.failoverPool n).2 := by
  unfold Reconnect.failoverPool
  by_cases hn : 1 < n
  · rw [if_pos hn]
    obtain ⟨k, -, -, heq, -⟩ := nextFailoverPool_spec hpool s.yieldDegradedPools
    have hlt : nextFailoverPool s.poolIdx n s.yieldDegradedPools < n := by
      rw [heq]
      exact mod_lt _ (by omega)
    dsimp only
    by_cases hspent : nextFailoverPool s.poolIdx n s.yieldDegradedPools = s.poolIdx ∧
        s.poolIdx ∈ s.yieldDegradedPools
    · rw [if_pos hspent]
      refine ⟨zero_lt_of_lt hn, rfl, rfl, rfl, fun h => (by cases h), fun hfresh => ?_⟩
      rw [hfresh] at hspent
      cases hspent.2
    · rw [if_neg hspent]
      refine ⟨hlt, rfl, rfl, rfl, fun h => by simpa using h, fun hfresh => ?_⟩
      rw [hfresh, nextFailoverPool_nil hpool]
      refine ⟨rfl, rfl, ?_⟩
      rw [decide_eq_true_iff]
      constructor
      · intro hgt
        by_contra hlast
        have hwrap : s.poolIdx + 1 = n := by omega
        rw [hwrap, mod_self] at hgt
        omega
      · intro hlast
        rw [mod_eq_of_lt hlast]
        omega
  · rw [if_neg hn]
    have hone : n = 1 := by omega
    subst hone
    refine ⟨hpool, rfl, rfl, rfl, fun h => (by cases h), fun hfresh => ⟨hfresh, ?_, ?_⟩⟩
    · dsimp only
      omega
    · exact iff_of_false (by simp) (by omega)

/-- How far the loop has got in its pass over addresses and pools. -/
def progress (r : ReconnectOpts) (s : Reconnect) : Nat :=
  if s.stopped.isSome then r.n * r.m else s.addrIdx * r.n + s.poolIdx

/-- The indices are in range, and only established sessions have left marks. -/
structure ReconnectInv (r : ReconnectOpts) (s : Reconnect) : Prop where
  poolIdx : s.poolIdx < r.n
  addrIdx : s.addrIdx < r.m
  fresh : s.addrConnected = false → s.yieldDegradedPools = []

theorem progress_of_running (r : ReconnectOpts) {s : Reconnect} (hrun : s.stopped = none) :
    progress r s = s.addrIdx * r.n + s.poolIdx := by
  rw [progress, hrun]
  exact if_neg Bool.false_ne_true

theorem progress_lt {r : ReconnectOpts} {s : Reconnect} (hinv : ReconnectInv r s)
    (hrun : s.stopped = none) : progress r s < r.n * r.m := by
  have hle : (s.addrIdx + 1) * r.n ≤ r.m * r.n := Nat.mul_le_mul_right _ hinv.addrIdx
  have hpool := hinv.poolIdx
  rw [progress_of_running r hrun, mul_comm r.n r.m]
  rw [succ_mul] at hle
  omega

/-- Where a turn goes from the state `s` in which its session leaves the loop;
`rest` is what the loop does after the attempt. -/
structure Advance (r : ReconnectOpts) (s s' : Reconnect) (rest : List Action) : Prop where
  inv : ReconnectInv r s'
  addrConnected : s'.addrConnected = s.addrConnected
  kept : s.addrConnected = true → s'.addrIdx = s.addrIdx
  order : s.addrConnected = false → s'.stopped = none →
    s'.poolIdx = (s.poolIdx + 1) % r.n ∧
      s'.addrIdx = if s.poolIdx + 1 < r.n then s.addrIdx else (s.addrIdx + 1) % r.m
  paced : (rest = [] ∧ progress r s < progress r s') ∨ ∃ d, rest = [.sleep d]

section

variable {r : ReconnectOpts} {s : Reconnect}

/-- Stopping. -/
theorem Advance.stop (hinv : ReconnectInv r s) (hrun : s.stopped = none) {s' : Reconnect}
    (hpool : s'.poolIdx = s.poolIdx) (haddr : s'.addrIdx = s.addrIdx)
    (hconn : s'.addrConnected = s.addrConnected)
    (hfresh : s'.addrConnected = false → s'.yieldDegradedPools = [])
    (hstop : s'.stopped.isSome = true) : Advance r s s' [] where
  inv := ⟨hpool ▸ hinv.poolIdx, haddr ▸ hinv.addrIdx, hfresh⟩
  addrConnected := hconn
  kept := fun _ => haddr
  order := fun _ hnone => by
    rw [hnone] at hstop
    cases hstop
  paced := by
    refine .inl ⟨rfl, (progress_lt hinv hrun).trans_eq ?_⟩
    rw [progress, if_pos hstop]

/-- Sleeping at the end of the turn leaves the indices alone. -/
theorem backOff_spec (s : Reconnect) (round : Round) :
    (s.backOff round).1.poolIdx = s.poolIdx ∧ (s.backOff round).1.addrIdx = s.addrIdx ∧
      (s.backOff round).1.addrConnected = s.addrConnected ∧
      (s.backOff round).1.yieldDegradedPools = s.yieldDegradedPools ∧
      (round.cancel = .never → (s.backOff round).1.stopped = s.stopped) ∧
      ∃ d, (s.backOff round).2 = [.sleep d] := by
  unfold Reconnect.backOff
  dsimp only
  split
  · next hcancel =>
    refine ⟨rfl, rfl, rfl, rfl, fun hnever => ?_, _, rfl⟩
    rw [hnever] at hcancel
    cases hcancel
  · exact ⟨rfl, rfl, rfl, rfl, fun _ => rfl, _, rfl⟩

/-- The next pool at once. -/
theorem Advance.nextPool (hinv : ReconnectInv r s) (hrun : s.stopped = none) {s' : Reconnect}
    (hf : PoolFailover r.n s s' true) : Advance r s s' [] where
  inv := by
    refine ⟨hf.poolIdx, hf.addrIdx ▸ hinv.addrIdx, fun hnot => ?_⟩
    exact (hf.fresh (hinv.fresh (hf.addrConnected.symm.trans hnot))).1
  addrConnected := hf.addrConnected
  kept := fun _ => hf.addrIdx
  order := fun hnot _ => by
    obtain ⟨-, hpool, hlast⟩ := hf.fresh (hinv.fresh hnot)
    refine ⟨hpool, ?_⟩
    rw [if_pos (hlast.mp rfl)]
    exact hf.addrIdx
  paced := by
    refine .inl ⟨rfl, ?_⟩
    have hgt := hf.advance rfl
    rw [progress_of_running r hrun, progress_of_running r (hf.stopped.trans hrun), hf.addrIdx]
    omega

/-- A sleep in the state `t`. -/
theorem Advance.sleep {t : Reconnect} (hinv : ReconnectInv r t)
    (hconn : t.addrConnected = s.addrConnected)
    (hkept : s.addrConnected = true → t.addrIdx = s.addrIdx)
    (horder : s.addrConnected = false → t.poolIdx = (s.poolIdx + 1) % r.n ∧
      t.addrIdx = if s.poolIdx + 1 < r.n then s.addrIdx else (s.addrIdx + 1) % r.m)
    (round : Round) : Advance r s (t.backOff round).1 (t.backOff round).2 := by
  obtain ⟨hpool, haddr, hconn', hmarks, -, hsleep⟩ := backOff_spec t round
  refine ⟨⟨hpool ▸ hinv.poolIdx, haddr ▸ hinv.addrIdx, fun hnot => ?_⟩, hconn'.trans hconn,
    fun h => haddr.trans (hkept h), fun hnot _ => ?_, .inr hsleep⟩
  · rw [hmarks]
    exact hinv.fresh (hconn'.symm.trans hnot)
  · rw [hpool, haddr]
    exact horder hnot

/-- As long as nothing has connected, a pass over the pools ends at the last
one. -/
theorem PoolFailover.pass (hinv : ReconnectInv r s) {t : Reconnect}
    (hf : PoolFailover r.n s t false) (hnot : s.addrConnected = false) :
    s.poolIdx + 1 = r.n ∧ t.poolIdx = 0 ∧ t.yieldDegradedPools = [] := by
  obtain ⟨hmarks, hpool, hiff⟩ := hf.fresh (hinv.fresh hnot)
  have hlt := hinv.poolIdx
  have hnext : ¬ s.poolIdx + 1 < r.n := fun h => by cases hiff.mpr h
  have hend : s.poolIdx + 1 = r.n := by omega
  rw [hend, mod_self] at hpool
  exact ⟨hend, hpool, hmarks⟩

/-- The order of attempts where a pass ends: the first pool under the next
address. -/
theorem order_of_pass (hend : s.poolIdx + 1 = r.n) {addr : Nat}
    (haddr : addr = (s.addrIdx + 1) % r.m) : 0 = (s.poolIdx + 1) % r.n ∧
      addr = if s.poolIdx + 1 < r.n then s.addrIdx else (s.addrIdx + 1) % r.m := by
  rw [hend, mod_self, if_neg (lt_irrefl _)]
  exact ⟨rfl, haddr⟩

section

variable (hinv : ReconnectInv r s) (hrun : s.stopped = none)

include hinv hrun

/-- Address failover after a pass: the next address at once, or a sleep after
the last one. -/
theorem Advance.nextAddress {t : Reconnect} (hf : PoolFailover r.n s t false)
    (hbackup : t.addrConnected = false ∧ 1 < r.m) (round : Round) :
    Advance r s (t.afterPools r round).1 (t.afterPools r round).2 := by
  have hnot : s.addrConnected = false := hf.addrConnected.symm.trans hbackup.1
  obtain ⟨hend, -, hmarks⟩ := hf.pass hinv hnot
  have hinv' : ReconnectInv r
      { t with addrIdx := (t.addrIdx + 1) % r.m, poolIdx := 0, addrConnected := false } :=
    ⟨zero_lt_of_lt hinv.poolIdx, mod_lt _ (zero_lt_of_lt hinv.addrIdx),
      fun _ => hmarks⟩
  have hkept : s.addrConnected = true → (t.addrIdx + 1) % r.m = s.addrIdx := by
    intro hconn
    rw [hnot] at hconn
    cases hconn
  have horder := order_of_pass (r := r) (s := s) hend
    (show (t.addrIdx + 1) % r.m = (s.addrIdx + 1) % r.m by rw [hf.addrIdx])
  unfold Reconnect.afterPools Reconnect.failoverAddress
  rw [if_pos hbackup]
  dsimp only
  by_cases hwrap : (t.addrIdx + 1) % r.m ≠ 0
  · rw [if_pos (by simpa using hwrap)]
    refine ⟨hinv', hnot.symm, hkept, fun _ _ => horder, .inl ⟨rfl, ?_⟩⟩
    -- The next address starts where this one's pass ended.
    have haddr := hinv.addrIdx
    have hnext : (s.addrIdx + 1) % r.m = s.addrIdx + 1 := by
      rw [hf.addrIdx] at hwrap
      apply mod_eq_of_lt
      by_contra hge
      have hlast : s.addrIdx + 1 = r.m := by omega
      exact hwrap (by rw [hlast, mod_self])
    rw [progress_of_running r hrun]
    refine lt_of_lt_of_eq ?_ (progress_of_running r ?_).symm
    · dsimp only
      rw [hf.addrIdx, hnext, succ_mul]
      omega
    · exact hf.stopped.trans hrun
  · rw [if_neg (by simpa using hwrap)]
    exact Advance.sleep hinv' hnot.symm hkept (fun _ => horder) round

/-- After the last pool: the next address, or a sleep. -/
theorem Advance.afterPools {t : Reconnect} (hf : PoolFailover r.n s t false) (round : Round) :
    Advance r s (t.afterPools r round).1 (t.afterPools r round).2 := by
  by_cases hbackup : t.addrConnected = false ∧ 1 < r.m
  · exact Advance.nextAddress hinv hrun hf hbackup round
  · have hinv' : ReconnectInv r t :=
      ⟨hf.poolIdx, hf.addrIdx ▸ hinv.addrIdx,
        fun hnot => (hf.pass hinv (hf.addrConnected.symm.trans hnot)).2.2⟩
    unfold Reconnect.afterPools Reconnect.failoverAddress
    rw [if_neg hbackup]
    dsimp only
    rw [if_neg Bool.false_ne_true]
    refine Advance.sleep hinv' hf.addrConnected (fun _ => hf.addrIdx) (fun hnot => ?_) round
    obtain ⟨hend, hpool, -⟩ := hf.pass hinv hnot
    rw [hpool]
    apply order_of_pass hend
    -- There is only one address.
    have hone : r.m = 1 := by
      have hle : ¬ 1 < r.m := fun h => hbackup ⟨hf.addrConnected.trans hnot, h⟩
      have hlt := hinv.addrIdx
      omega
    have haddr := hinv.addrIdx
    rw [hf.addrIdx, hone]
    omega

/-- Going on after a session that was not fatal. -/
theorem Advance.failover (round : Round) :
    Advance r s (s.failover r round).1 (s.failover r round).2 := by
  have hf := failoverPool_spec hinv.poolIdx
  unfold Reconnect.failover
  dsimp only
  cases hagain : (s.failoverPool r.n).2 with
  | true =>
    rw [if_pos rfl]
    exact Advance.nextPool hinv hrun (hagain ▸ hf)
  | false =>
    rw [if_neg Bool.false_ne_true]
    exact Advance.afterPools hinv hrun (hagain ▸ hf) round

end

/-- Unless it is canceled, the loop goes on. -/
theorem failover_running (hpool : s.poolIdx < r.n) {round : Round}
    (hnever : round.cancel = .never) : (s.failover r round).1.stopped = s.stopped := by
  have haddr : ∀ t : Reconnect, (t.failoverAddress r.m).1.stopped = t.stopped := by
    intro t
    unfold Reconnect.failoverAddress
    split <;> rfl
  have hpools := (failoverPool_spec hpool).stopped
  unfold Reconnect.failover Reconnect.afterPools
  dsimp only
  split
  · exact hpools
  · split
    · exact (haddr _).trans hpools
    · obtain ⟨-, -, -, -, hstopped, -⟩ :=
        backOff_spec ((s.failoverPool r.n).1.failoverAddress r.m).1 round
      exact (hstopped hnever).trans ((haddr _).trans hpools)

section

variable (hinv : ReconnectInv r s)

include hinv

theorem afterSession_inv {o : Outcome} (hmark : isYieldDegraded o.err = true → o.connected = true) :
    ReconnectInv r (s.afterSession o) where
  poolIdx := hinv.poolIdx
  addrIdx := hinv.addrIdx
  fresh := by
    intro hnot
    obtain ⟨hold, hout⟩ := Bool.or_eq_false_iff.mp hnot
    have hclean : isYieldDegraded o.err = false := by
      by_contra hdegraded
      rw [hmark (by simpa using hdegraded)] at hout
      cases hout
    rw [Reconnect.afterSession, hclean]
    exact hinv.fresh hold

/-- The end of a session, whatever its outcome. -/
theorem Advance.endSession (hrun : s.stopped = none) (round : Round) {o : Outcome}
    (hmark : isYieldDegraded o.err = true → o.connected = true) :
    Advance r (s.afterSession o) (s.endSession r round o).1 (s.endSession r round o).2 := by
  have hinv' := afterSession_inv hinv hmark
  unfold Reconnect.endSession
  by_cases hcancel : round.cancel = .inSession
  · rw [if_pos hcancel]
    refine Advance.stop hinv' hrun rfl rfl rfl (fun hnot => ?_) rfl
    exact hinv.fresh (Bool.or_eq_false_iff.mp hnot).1
  · rw [if_neg hcancel]
    by_cases hfatal : isFatal o.err = true
    · rw [if_pos hfatal]
      exact Advance.stop hinv' hrun rfl rfl rfl hinv'.fresh rfl
    · rw [if_neg hfatal]
      -- The delay plays no part in where the loop goes.
      generalize (if o.connected then reconnectBackoffInitial else s.backoff) = delay
      have hdelayed : ReconnectInv r { s.afterSession o with backoff := delay } :=
        ⟨hinv'.poolIdx, hinv'.addrIdx, hinv'.fresh⟩
      have h := Advance.failover hdelayed hrun round
      exact ⟨h.inv, h.addrConnected, h.kept, h.order, h.paced⟩

/-- The loop goes on after a session exactly if that was not fatal. -/
theorem endSession_running (hrun : s.stopped = none) {round : Round}
    (hnever : round.cancel = .never) (o : Outcome) :
    (s.endSession r round o).1.stopped = none ↔ isFatal o.err = false := by
  unfold Reconnect.endSession
  rw [hnever, if_neg (by simp)]
  by_cases hfatal : isFatal o.err = true
  · rw [if_pos hfatal, hfatal]
    simp
  · rw [if_neg hfatal]
    refine iff_of_true ?_ (by simpa using hfatal)
    generalize (if o.connected then reconnectBackoffInitial else s.backoff) = delay
    have hpool : ({ s.afterSession o with backoff := delay } : Reconnect).poolIdx < r.n :=
      hinv.poolIdx
    exact (failover_running hpool hnever).trans hrun

/-- An attempt is counted before it is made. -/
theorem ReconnectInv.counted :
    ReconnectInv r { s with attempt := s.attempt + 1 } :=
  ⟨hinv.poolIdx, hinv.addrIdx, hinv.fresh⟩

/-- What a turn of the running loop does: it returns, or makes an attempt and
goes on from there. -/
theorem step_cases (hrun : s.stopped = none) (round : Round) :
    (∃ s', Reconnect.step r s round = (s', []) ∧ s'.stopped.isSome = true ∧
      s'.poolIdx = s.poolIdx ∧ s'.addrIdx = s.addrIdx ∧ s'.addrConnected = s.addrConnected ∧
      s'.yieldDegradedPools = s.yieldDegradedPools) ∨
    ∃ s' rest, Reconnect.step r s round = (s', .attempt (s.attemptOf r round.peer) :: rest) ∧
      Advance r (s.afterSession (s.attemptOf r round.peer).outcome) s' rest := by
  unfold Reconnect.step
  rw [if_neg (by simp [hrun])]
  by_cases hhead : round.cancel = .atHead
  · rw [if_pos hhead]
    exact .inl ⟨_, rfl, rfl, rfl, rfl, rfl, rfl⟩
  · rw [if_neg hhead]
    dsimp only
    by_cases hlimit : 0 < r.maxReconnectAttempts ∧ r.maxReconnectAttempts < s.attempt + 1
    · rw [if_pos hlimit]
      exact .inl ⟨_, rfl, rfl, rfl, rfl, rfl, rfl⟩
    · rw [if_neg hlimit]
      refine .inr ⟨_, _, rfl, ?_⟩
      have h := Advance.endSession hinv.counted hrun round
        (o := (s.attemptOf r round.peer).outcome) connected_of_isYieldDegraded
      exact ⟨h.inv, h.addrConnected, h.kept, h.order, h.paced⟩

end

theorem step_of_stopped {stop : Stop} (hstop : s.stopped = some stop) (round : Round) :
    Reconnect.step r s round = (s, []) := by
  unfold Reconnect.step
  rw [if_pos (by rw [hstop]; rfl)]

theorem reconnectInv_step (hinv : ReconnectInv r s) (round : Round) :
    ReconnectInv r (Reconnect.step r s round).1 := by
  cases hrun : s.stopped with
  | some stop =>
    rw [step_of_stopped hrun]
    exact hinv
  | none =>
    rcases step_cases hinv hrun round with
      ⟨s', hstep, -, hpool, haddr, hconn, hmarks⟩ | ⟨s', rest, hstep, hadvance⟩
    · rw [hstep]
      refine ⟨hpool ▸ hinv.poolIdx, haddr ▸ hinv.addrIdx, fun hnot => ?_⟩
      rw [hmarks]
      exact hinv.fresh (hconn.symm.trans hnot)
    · rw [hstep]
      exact hadvance.inv

end

/-! ## Addresses and pace -/

theorem poolURLs_pos (cfg : Config) : 0 < (poolURLs cfg).length := by
  unfold poolURLs
  split
  · simp
  · next hpools =>
    rw [length_map]
    exact length_pos_iff.mpr hpools

theorem ReconnectInv.start {r : ReconnectOpts} (hm : 0 < r.m) : ReconnectInv r Reconnect.start :=
  ⟨poolURLs_pos r.config, hm, fun _ => rfl⟩

/-- The loop is paced by its progress. -/
theorem reconnectLoop_paced (r : ReconnectOpts) :
    (reconnectLoop r).Paced Action.IsSleep (ReconnectInv r) (progress r) (r.n * r.m) where
  inv := fun s round hinv => reconnectInv_step hinv round
  bound := by
    intro s hinv
    cases hrun : s.stopped with
    | some stop => simp [progress, hrun]
    | none => exact (progress_lt hinv hrun).le
  step := by
    intro s round hinv
    show ((Reconnect.step r s round).2 = [] ∧ _ ≤ progress r (Reconnect.step r s round).1) ∨
      (∃ w, (Reconnect.step r s round).2 = [w] ∧ _ < progress r (Reconnect.step r s round).1) ∨
      ∃ w p, (Reconnect.step r s round).2 = [w, p] ∧ Action.IsSleep p ∧ _
    cases hrun : s.stopped with
    | some stop =>
      rw [step_of_stopped hrun]
      exact .inl ⟨rfl, le_rfl⟩
    | none =>
      have hlt := progress_lt hinv hrun
      rcases step_cases hinv hrun round with
        ⟨s', hstep, hstop, -⟩ | ⟨s', rest, hstep, hadvance⟩
      · rw [hstep]
        have hend : progress r s' = r.n * r.m := if_pos hstop
        exact .inl ⟨rfl, hend ▸ hlt.le⟩
      · rw [hstep]
        rcases hadvance.paced with ⟨rfl, hprogress⟩ | ⟨d, rfl⟩
        · exact .inr (.inl ⟨_, rfl, hprogress⟩)
        · exact .inr (.inr ⟨_, _, rfl, trivial, hlt⟩)

theorem attempts_append (l l' : List Action) : attempts (l ++ l') = attempts l ++ attempts l' :=
  filterMap_append

/-- After an attempt the loop does not make another one in the same turn. -/
theorem Advance.attempts_cons {r : ReconnectOpts} {s s' : Reconnect} {rest : List Action}
    (h : Advance r s s' rest) (a : Attempt) : attempts (.attempt a :: rest) = [a] := by
  rcases h.paced with ⟨rfl, -⟩ | ⟨d, rfl⟩
  · rfl
  · rfl

/-- Quotients and remainders of consecutive numbers. -/
theorem succ_div_eq {n : Nat} (hn : 0 < n) (k : Nat) :
    (k + 1) / n = if k % n + 1 < n then k / n else k / n + 1 := by
  have hmod := mod_lt k hn
  have hsplit : k + 1 = n * (k / n) + (k % n + 1) := by
    have h := div_add_mod k n
    omega
  rw [hsplit, mul_add_div hn]
  split
  · next hlt => rw [div_eq_of_lt hlt, add_zero]
  · next hge =>
    have hend : k % n + 1 = n := by omega
    rw [hend, Nat.div_self hn]

/-- What the actions so far say about the state. -/
structure TraceInv (r : ReconnectOpts) (actions : List Action) (s : Reconnect) : Prop where
  inv : ReconnectInv r s
  kept : (attempts actions).Pairwise fun a b => a.outcome.connected = true → b.addrIdx = a.addrIdx
  working : ∀ a ∈ attempts actions, a.outcome.connected = true →
    s.addrIdx = a.addrIdx ∧ s.addrConnected = true
  order : ∀ pre a, pre ++ [a] <+: attempts actions → (∀ b ∈ pre, b.outcome.connected = false) →
    a.poolIdx = pre.length % r.n ∧ a.addrIdx = pre.length / r.n % r.m
  next : s.stopped = none → (∀ a ∈ attempts actions, a.outcome.connected = false) →
    s.poolIdx = (attempts actions).length % r.n ∧
      s.addrIdx = (attempts actions).length / r.n % r.m ∧ s.addrConnected = false

section

variable {r : ReconnectOpts} {s : Reconnect} {actions : List Action}

theorem TraceInv.start (hm : 0 < r.m) : TraceInv r [] Reconnect.start where
  inv := ReconnectInv.start hm
  kept := List.Pairwise.nil
  working := fun a ha => by cases ha
  order := fun pre a hle => absurd (prefix_nil.mp hle) (by simp)
  next := fun _ _ => by simp [attempts, Reconnect.start]

/-- A turn with an attempt. -/
theorem TraceInv.attempt (h : TraceInv r actions s) (hrun : s.stopped = none) {a : Attempt}
    (hpool : a.poolIdx = s.poolIdx) (haddr : a.addrIdx = s.addrIdx) {s' : Reconnect}
    {rest : List Action} (hadvance : Advance r (s.afterSession a.outcome) s' rest) :
    TraceInv r (actions ++ .attempt a :: rest) s' := by
  have hattempts : attempts (actions ++ .attempt a :: rest) = attempts actions ++ [a] := by
    rw [attempts_append, hadvance.attempts_cons]
  have hn : 0 < r.n := zero_lt_of_lt h.inv.poolIdx
  refine ⟨hadvance.inv, ?_, ?_, ?_, ?_⟩
  · rw [hattempts, pairwise_append]
    refine ⟨h.kept, pairwise_singleton _ _, fun b hb c hc hconn => ?_⟩
    obtain rfl := mem_singleton.mp hc
    rw [haddr]
    exact (h.working b hb hconn).1
  · rw [hattempts]
    intro b hb hconn
    have hcases : s.addrIdx = b.addrIdx ∧ (s.afterSession a.outcome).addrConnected = true := by
      rcases mem_append.mp hb with hb | hb
      · obtain ⟨hidx, hold⟩ := h.working b hb hconn
        exact ⟨hidx, by simp [Reconnect.afterSession, hold]⟩
      · obtain rfl := mem_singleton.mp hb
        exact ⟨haddr.symm, by simp [Reconnect.afterSession, hconn]⟩
    exact ⟨(hadvance.kept hcases.2).trans hcases.1, hadvance.addrConnected.trans hcases.2⟩
  · rw [hattempts]
    intro pre b hle hnone
    rcases prefix_concat_iff.mp hle with heq | hle
    · obtain ⟨rfl, rfl⟩ := append_singleton_inj.mp heq
      obtain ⟨hpool', haddr', -⟩ := h.next hrun hnone
      exact ⟨hpool.trans hpool', haddr.trans haddr'⟩
    · exact h.order pre b hle hnone
  · rw [hattempts]
    intro hrun' hnone
    obtain ⟨hpool', haddr', hnot⟩ := h.next hrun fun b hb => hnone b (by simp [hb])
    have hnot' : (s.afterSession a.outcome).addrConnected = false := by
      simp [Reconnect.afterSession, hnot, hnone a (by simp)]
    obtain ⟨hpool'', haddr''⟩ := hadvance.order hnot' hrun'
    rw [length_append, length_singleton]
    refine ⟨?_, ?_, hadvance.addrConnected.trans hnot'⟩
    · rw [hpool'']
      show (s.poolIdx + 1) % r.n = _
      rw [hpool', mod_add_mod]
    · rw [haddr'', succ_div_eq hn]
      show (if s.poolIdx + 1 < r.n then s.addrIdx else (s.addrIdx + 1) % r.m) = _
      rw [hpool', haddr']
      split
      · rfl
      · rw [mod_add_mod]

theorem TraceInv.step (h : TraceInv r actions s) (round : Round) :
    TraceInv r (actions ++ (Reconnect.step r s round).2) (Reconnect.step r s round).1 := by
  cases hrun : s.stopped with
  | some stop =>
    rw [step_of_stopped hrun, append_nil]
    exact h
  | none =>
    rcases step_cases h.inv hrun round with
      ⟨s', hstep, hstop, -, haddr, hconn, -⟩ | ⟨s', rest, hstep, hadvance⟩
    · have hinv := reconnectInv_step h.inv round
      rw [hstep] at hinv ⊢
      rw [append_nil]
      refine ⟨hinv, h.kept, fun a ha hc => ?_, h.order, fun hnone => ?_⟩
      · rw [haddr, hconn]
        exact h.working a ha hc
      · rw [hnone] at hstop
        cases hstop
    · rw [hstep]
      exact h.attempt hrun rfl rfl hadvance

end

theorem traceInv_run {r : ReconnectOpts} (hm : 0 < r.m) (rounds : List Round) :
    TraceInv r ((reconnectLoop r).outputs Reconnect.start rounds)
      ((reconnectLoop r).run Reconnect.start rounds) :=
  (reconnectLoop r).run_history (P := fun _ actions s => TraceInv r actions s)
    (Q := fun _ => True) (TraceInv.start hm) (fun _ _ _ round _ h => h.step round) rounds
    fun _ _ => trivial

/-- **A working address is kept, and failover is paced.**  In every run of the
loop the indices stay in range; once an attempt has led to a session, every
later one uses its address; until then the attempts go through the pools in
order under one address after the other; and the loop sleeps at least once
every `n * m` attempts. -/
theorem reconnect_paced (r : ReconnectOpts) (hm : 0 < r.m) (rounds : List Round) :
    (∀ pre, pre <+: rounds → ((reconnectLoop r).run Reconnect.start pre).poolIdx < r.n ∧
      ((reconnectLoop r).run Reconnect.start pre).addrIdx < r.m) ∧
    (attempts ((reconnectLoop r).outputs Reconnect.start rounds)).Pairwise
      (fun a b => a.outcome.connected = true → b.addrIdx = a.addrIdx) ∧
    (∀ pre a, pre ++ [a] <+: attempts ((reconnectLoop r).outputs Reconnect.start rounds) →
      (∀ b ∈ pre, b.outcome.connected = false) →
        a.poolIdx = pre.length % r.n ∧ a.addrIdx = pre.length / r.n % r.m) ∧
    ∀ mid, mid <:+: (reconnectLoop r).outputs Reconnect.start rounds →
      (∀ action ∈ mid, ¬ action.IsSleep) → mid.length ≤ r.n * r.m := by
  have htrace := traceInv_run hm rounds
  refine ⟨fun pre _ => ?_, htrace.kept, htrace.order, fun mid hmid hawake => ?_⟩
  · have hinv := (traceInv_run hm pre).inv
    exact ⟨hinv.poolIdx, hinv.addrIdx⟩
  · exact (reconnectLoop_paced r).infix_length rounds _ (ReconnectInv.start hm) hmid hawake

/-- A pool by its URL. -/
def samplePool (url : String) : PoolConfig where
  url := url
  user := ""
  password := ""
  payoutScheme := ""
  tlsCAFile := ""

/-- Two Stratum V2 pools and two payout addresses. -/
def twoByTwo : ReconnectOpts where
  config :=
    { bitcoinAddress := "addr1"
      bitcoinAddresses := ["addr2", "addr1"]
      pools := [samplePool "stratum+v2://a:1", samplePool "stratum+v2://b:1"]
      workerName := "" }
  maxReconnectAttempts := 0

/-- Nobody answers. -/
def silentPeer : Peer where
  dialed := false
  sentSetup := false
  setup := .readError
  sentOpen := false
  channel := .readError
  subscribe := none
  authorize := none
  loopEnd := .poolClosedConnection
  loopEndV1 := .poolClosedConnection

/-- The pool opens a channel, and closes the connection later. -/
def willingPeer : Peer :=
  { silentPeer with
    dialed := true
    sentSetup := true
    setup := .frame 1 (.setupConnectionSuccess { usedVersion := 2, flags := 0 })
    sentOpen := true
    channel := .frame 0x11 (.openMiningChannelSuccess
      { reqID := 1, channelID := 7, target := Bytes.zero32, extranonce := [], groupChannelID := 3 }) }

/-- A turn that is not canceled. -/
def calmRound (peer : Peer) : Round where
  peer := peer
  cancel := .never
  draw := some 0

/-- The third attempt connects, under the second address; the loop sleeps when
both pools have then been tried, and stays with the address. -/
theorem twoByTwo_paced :
    (attempts ((reconnectLoop twoByTwo).outputs Reconnect.start
        [calmRound silentPeer, calmRound silentPeer, calmRound willingPeer, calmRound silentPeer,
         calmRound silentPeer])).map (fun a => (a.addrIdx, a.poolIdx, a.outcome.connected)) =
      [(0, 0, false), (0, 1, false), (1, 0, true), (1, 1, false), (1, 0, false)] ∧
    ∀ mid, mid <:+: (reconnectLoop twoByTwo).outputs Reconnect.start
        [calmRound silentPeer, calmRound silentPeer, calmRound willingPeer, calmRound silentPeer,
         calmRound silentPeer] →
      (∀ action ∈ mid, ¬ action.IsSleep) → mid.length ≤ twoByTwo.n * twoByTwo.m :=
  ⟨by decide +kernel, (reconnect_paced twoByTwo (by decide) _).2.2.2⟩

end Otedama.Engine
