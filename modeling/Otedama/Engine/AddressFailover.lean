import Otedama.Engine.Reconnect

/-! # Getting to the backup addresses

A pool that refuses the primary payout address should not keep the loop
from trying the backups. Most refusals do not: a failed dial, a broken
connection or a refused Stratum V1 login lead to the next pool or address.
A `SetupConnectionError` or an `OpenMiningChannelError` over Stratum V2,
however, is a fatal error and ends the loop.

`failover_reaches_iff` says that nothing else does. -/

namespace Otedama.Engine

open List Reconnect Nat

/-! ## What is due -/

/-- The first `k` turns. -/
def turns (env : ℕ → Round) (k : Nat) : List Round := (List.range k).map env

theorem turns_succ (env : ℕ → Round) (k : Nat) : turns env (k + 1) = turns env k ++ [env k] := by
  unfold turns
  rw [range_succ, map_append, map_singleton]

/-- The attempt that is due in a turn when nothing has connected before: the
pools in order, under one address after the other. -/
def due (r : ReconnectOpts) (env : ℕ → Round) (t : Nat) : Attempt :=
  Reconnect.attemptOf r
    { Reconnect.start with poolIdx := t % r.n, addrIdx := t / r.n % r.m } (env t).peer

/-- The attempt that is due meets with a rejection over Stratum V2. -/
def dueRejected (r : ReconnectOpts) (env : ℕ → Round) (t : Nat) : Bool :=
  rejected (due r env t).args.poolURL (env t).peer

theorem isFatal_due (r : ReconnectOpts) (env : ℕ → Round) (t : Nat) :
    isFatal (due r env t).outcome.err = dueRejected r env t :=
  isFatal_sessionOutcome _ _

/-- The attempts of the first `k` turns. -/
def made (r : ReconnectOpts) (env : ℕ → Round) (k : Nat) : List Attempt :=
  attempts ((reconnectLoop r).outputs Reconnect.start (turns env k))

/-- The loop after the first `k` turns. -/
def after (r : ReconnectOpts) (env : ℕ → Round) (k : Nat) : Reconnect :=
  (reconnectLoop r).run Reconnect.start (turns env k)

section

variable {r : ReconnectOpts} {env : ℕ → Round}

theorem after_succ (r : ReconnectOpts) (env : ℕ → Round) (k : Nat) :
    after r env (k + 1) = (step r (after r env k) (env k)).1 := by
  unfold after
  rw [turns_succ, Machine.run_append]
  rfl

theorem made_succ (r : ReconnectOpts) (env : ℕ → Round) (k : Nat) :
    made r env (k + 1) = made r env k ++ attempts (step r (after r env k) (env k)).2 := by
  unfold made after
  rw [turns_succ, Machine.outputs_append, attempts_append]
  congr 1
  simp [reconnectLoop]

/-- Attempts once made stay made. -/
theorem made_mono {k k' : Nat} (hle : k ≤ k') : made r env k <+: made r env k' := by
  induction hle with
  | refl => exact prefix_refl _
  | step _ ih =>
    rw [made_succ]
    exact ih.trans (prefix_append _ _)

/-- A loop that has returned makes no more attempts. -/
theorem made_of_stopped {k k' : Nat} (hle : k ≤ k') (hstop : (after r env k).stopped.isSome = true) :
    made r env k' = made r env k ∧ (after r env k').stopped.isSome = true := by
  induction hle with
  | refl => exact ⟨rfl, hstop⟩
  | step _ ih =>
    obtain ⟨hmade, hstop'⟩ := ih
    obtain ⟨stop, hsome⟩ := Option.isSome_iff_exists.mp hstop'
    rw [made_succ, after_succ, step_of_stopped hsome, hmade]
    exact ⟨append_nil _, hstop'⟩

/-! ## One turn after the other -/

/-- A turn without limit and cancellation: an attempt, after which the loop
goes on unless it was rejected. -/
theorem step_uncanceled {s : Reconnect} (hinv : ReconnectInv r s) (hrun : s.stopped = none)
    (hlimit : r.maxReconnectAttempts = 0) {round : Round} (hcancel : round.cancel = .never) :
    attempts (step r s round).2 = [s.attemptOf r round.peer] ∧ ((step r s round).1.stopped = none ↔
        isFatal (s.attemptOf r round.peer).outcome.err = false) := by
  unfold step
  rw [if_neg (by simp [hrun]), if_neg (by simp [hcancel]), if_neg (by simp [hlimit])]
  have h := Advance.endSession hinv.counted hrun round
    (o := (s.attemptOf r round.peer).outcome) connected_of_isYieldDegraded
  exact ⟨h.attempts_cons _, endSession_running hinv.counted hrun hcancel _⟩

section

variable (hm : 0 < r.m) (hlimit : r.maxReconnectAttempts = 0)
  (hcancel : ∀ t, (env t).cancel = .never)

include hm hlimit hcancel

/-- When everything so far went as due and nothing has connected, so does the
next turn, and it ends the loop exactly if the attempt is rejected. -/
theorem made_next {k : Nat} (hmade : made r env k = (range k).map (due r env))
    (hrun : (after r env k).stopped = none)
    (hfail : ∀ t < k, (due r env t).outcome.connected = false) :
    made r env (k + 1) = (range (k + 1)).map (due r env) ∧
      ((after r env (k + 1)).stopped = none ↔ dueRejected r env k = false) := by
  have htrace := traceInv_run hm (turns env k)
  have hnone : ∀ a ∈ made r env k, a.outcome.connected = false := by
    intro a ha
    rw [hmade] at ha
    obtain ⟨t, ht, rfl⟩ := mem_map.mp ha
    exact hfail t (mem_range.mp ht)
  obtain ⟨hpool, haddr, -⟩ := htrace.next hrun hnone
  have hlength : (made r env k).length = k := by
    rw [hmade, length_map, length_range]
  have hdue : (after r env k).attemptOf r (env k).peer = due r env k := by
    have hpool' : (after r env k).poolIdx = (made r env k).length % r.n := hpool
    have haddr' : (after r env k).addrIdx = (made r env k).length / r.n % r.m := haddr
    unfold due attemptOf
    rw [hpool', haddr', hlength]
  obtain ⟨hattempts, hiff⟩ := step_uncanceled htrace.inv hrun hlimit (hcancel k)
  rw [made_succ, after_succ]
  constructor
  · rw [range_succ, map_append, map_singleton, hmade, ← hdue]
    exact congrArg _ hattempts
  · rw [← isFatal_due, ← hdue]
    exact hiff

/-- As long as nothing connects and nothing is rejected, what is due is what
is done. -/
theorem made_eq_due (k : Nat) (hfail : ∀ t < k, (due r env t).outcome.connected = false)
    (hnot : ∀ t < k, dueRejected r env t = false) :
    made r env k = (range k).map (due r env) ∧ (after r env k).stopped = none := by
  induction k with
  | zero => exact ⟨rfl, rfl⟩
  | succ k ih =>
    obtain ⟨hmade, hrun⟩ := ih (fun t ht => hfail t (by omega)) fun t ht => hnot t (by omega)
    obtain ⟨hmade', hiff⟩ := made_next hm hlimit hcancel hmade hrun fun t ht => hfail t (by omega)
    exact ⟨hmade', hiff.mpr (hnot k (by omega))⟩

end

end

/-! ## Failover -/

/-- Within `(j + 1) * n` turns every pool is tried under every address up to
`j`, and the loop goes on; under `j` this ends with a session. -/
structure Reaches (r : ReconnectOpts) (env : ℕ → Round) (j : Nat) : Prop where
  running : (after r env ((j + 1) * r.n)).stopped = none ∨
    ∃ a ∈ made r env ((j + 1) * r.n), a.outcome.connected = true
  tried : ∀ i ≤ j, ∀ p < r.n,
    (∃ a ∈ made r env ((j + 1) * r.n), a.addrIdx = i ∧ a.poolIdx = p) ∨
    (i = j ∧ ∃ a ∈ made r env ((j + 1) * r.n), a.addrIdx = j ∧ a.outcome.connected = true)

/-- Until something connects, no attempt of the first `(j + 1) * n` is answered
with a rejection. -/
def NoRejection (r : ReconnectOpts) (env : ℕ → Round) (j : Nat) : Prop :=
  ∀ t < (j + 1) * r.n, (∀ u < t, (due r env u).outcome.connected = false) →
    dueRejected r env t = false

instance (r : ReconnectOpts) (env : ℕ → Round) (j : Nat) : Decidable (NoRejection r env j) :=
  inferInstanceAs (Decidable (∀ t < (j + 1) * r.n, _ → _))

section

variable {r : ReconnectOpts} {env : ℕ → Round} {j : Nat}

/-- The address and the pool of a turn, counted from the start. -/
theorem due_of_lt (env : ℕ → Round) (hj : j < r.m) {t : Nat} (ht : t < (j + 1) * r.n) :
    (due r env t).addrIdx = t / r.n ∧ (due r env t).poolIdx = t % r.n := by
  have hle : t / r.n < j + 1 := Nat.div_lt_of_lt_mul (by rwa [mul_comm])
  refine ⟨?_, rfl⟩
  show t / r.n % r.m = t / r.n
  exact mod_eq_of_lt (by omega)

/-- The turn in which a pool is due under an address. -/
theorem due_at (env : ℕ → Round) (hj : j < r.m) {i p : Nat} (hi : i ≤ j) (hp : p < r.n) :
    i * r.n + p < (j + 1) * r.n ∧ (due r env (i * r.n + p)).addrIdx = i ∧
      (due r env (i * r.n + p)).poolIdx = p := by
  have hpos : 0 < r.n := zero_lt_of_lt hp
  have hlt : i * r.n + p < (j + 1) * r.n := by
    have hle : (i + 1) * r.n ≤ (j + 1) * r.n := Nat.mul_le_mul_right _ (by omega)
    rw [succ_mul] at hle
    omega
  obtain ⟨haddr, hpool⟩ := due_of_lt env hj hlt
  rw [mul_comm i r.n] at haddr hpool hlt ⊢
  refine ⟨hlt, haddr.trans ?_, hpool.trans ?_⟩
  · rw [mul_add_div hpos, div_eq_of_lt hp, add_zero]
  · rw [mul_add_mod, mod_eq_of_lt hp]

/-- A rejection ends the loop. -/
theorem noRejection_of_reaches (hm : 0 < r.m) (hlimit : r.maxReconnectAttempts = 0)
    (hcancel : ∀ t, (env t).cancel = .never) (h : Reaches r env j) : NoRejection r env j := by
  intro t
  induction t using Nat.strong_induction_on with
  | _ t ih =>
    intro ht hfail
    by_contra hrejected
    obtain ⟨hmade, hrun⟩ := made_eq_due hm hlimit hcancel t hfail fun u hu =>
      ih u hu (by omega) fun v hv => hfail v (by omega)
    obtain ⟨hmade', hiff⟩ := made_next hm hlimit hcancel hmade hrun hfail
    have hstop : (after r env (t + 1)).stopped.isSome = true := by
      rw [Option.isSome_iff_ne_none]
      exact fun hnone => hrejected (hiff.mp hnone)
    obtain ⟨hall, hstop'⟩ := made_of_stopped ht hstop
    rcases h.running with hnone | ⟨a, ha, hconn⟩
    · rw [hnone] at hstop'
      cases hstop'
    · -- Nothing that was attempted connected, least of all what was rejected.
      rw [hall, hmade'] at ha
      obtain ⟨u, hu, rfl⟩ := mem_map.mp ha
      rcases Nat.lt_succ_iff_lt_or_eq.mp (mem_range.mp hu) with hlt | rfl
      · rw [hfail u hlt] at hconn
        cases hconn
      · have hnot := not_connected_of_rejected (by simpa [dueRejected] using hrejected)
        exact absurd hconn (by simpa [due, attemptOf] using hnot)

section

variable (hj : j < r.m) (hlimit : r.maxReconnectAttempts = 0)
  (hcancel : ∀ t, (env t).cancel = .never)

include hj hlimit hcancel

/-- Up to the first session everything goes as due. -/
theorem reaches_of_session
    (hbefore : ∀ a ∈ made r env ((j + 1) * r.n), a.addrIdx < j → a.outcome.connected = false)
    (h : NoRejection r env j) {t₀ : Nat} (hlt : t₀ < (j + 1) * r.n)
    (hfirst : (due r env t₀).outcome.connected = true)
    (hfail : ∀ t < t₀, (due r env t).outcome.connected = false) : Reaches r env j := by
  have hm : 0 < r.m := zero_lt_of_lt hj
  obtain ⟨hmade, hrun⟩ := made_eq_due hm hlimit hcancel t₀ hfail fun t ht =>
    h t (by omega) fun u hu => hfail u (by omega)
  obtain ⟨hmade', -⟩ := made_next hm hlimit hcancel hmade hrun hfail
  have hmem : ∀ t ≤ t₀, due r env t ∈ made r env ((j + 1) * r.n) := by
    intro t ht
    refine (made_mono hlt).subset ?_
    rw [hmade']
    exact mem_map_of_mem (mem_range.mpr (by omega))
  have haddr : (due r env t₀).addrIdx = j := by
    have heq := (due_of_lt env hj hlt).1
    have hle : t₀ / r.n < j + 1 := Nat.div_lt_of_lt_mul (by rwa [mul_comm])
    have hge : ¬ (due r env t₀).addrIdx < j := by
      intro hbelow
      rw [hbefore _ (hmem t₀ le_rfl) hbelow] at hfirst
      cases hfirst
    omega
  refine ⟨.inr ⟨_, hmem t₀ le_rfl, hfirst⟩, fun i hi p hp => ?_⟩
  rcases Nat.lt_or_eq_of_le hi with hlt' | rfl
  · obtain ⟨-, haddr', hpool'⟩ := due_at env hj hi hp
    refine .inl ⟨_, hmem _ ?_, haddr', hpool'⟩
    -- The turns of earlier addresses come before the session.
    have hj' : j * r.n ≤ t₀ := by
      rw [(due_of_lt env hj hlt).1] at haddr
      rw [← haddr]
      exact div_mul_le_self t₀ r.n
    have hle : (i + 1) * r.n ≤ j * r.n := Nat.mul_le_mul_right _ hlt'
    rw [succ_mul] at hle
    omega
  · exact .inr ⟨rfl, _, hmem t₀ le_rfl, haddr, hfirst⟩

/-- Where nothing connects, every attempt is made when it is due. -/
theorem reaches_of_noSession (h : NoRejection r env j)
    (hfail : ∀ t < (j + 1) * r.n, (due r env t).outcome.connected = false) : Reaches r env j := by
  obtain ⟨hmade, hrun⟩ := made_eq_due (zero_lt_of_lt hj) hlimit hcancel _ hfail fun t ht =>
    h t ht fun u hu => hfail u (by omega)
  refine ⟨.inl hrun, fun i hi p hp => .inl ?_⟩
  obtain ⟨hlt, haddr, hpool⟩ := due_at env hj hi hp
  refine ⟨_, ?_, haddr, hpool⟩
  rw [hmade]
  exact mem_map_of_mem (mem_range.mpr hlt)

/-- Without a rejection the loop gets there. -/
theorem reaches_of_noRejection
    (hbefore : ∀ a ∈ made r env ((j + 1) * r.n), a.addrIdx < j → a.outcome.connected = false)
    (h : NoRejection r env j) : Reaches r env j := by
  by_cases hconn : ∃ t, t < (j + 1) * r.n ∧ (due r env t).outcome.connected = true
  · obtain ⟨hlt, hfirst⟩ := Nat.find_spec hconn
    refine reaches_of_session hj hlimit hcancel hbefore h hlt hfirst fun t ht => ?_
    by_contra hyes
    exact Nat.find_min hconn ht ⟨by omega, by simpa using hyes⟩
  · refine reaches_of_noSession hj hlimit hcancel h fun t ht => ?_
    by_contra hyes
    exact hconn ⟨t, ht, by simpa using hyes⟩

end

end

/-- **Failover.**  Without an attempt limit and without cancellation, and when
no attempt under the addresses before `j` leads to a session, the loop
tries every pool under every address up to `j` within `(j + 1) * n`
attempts exactly when none of the attempts due until then is rejected. -/
theorem failover_reaches_iff (r : ReconnectOpts) (env : ℕ → Round) (j : Nat) (hj : j < r.m)
    (hlimit : r.maxReconnectAttempts = 0) (hcancel : ∀ t, (env t).cancel = .never)
    (hbefore : ∀ a ∈ made r env ((j + 1) * r.n), a.addrIdx < j → a.outcome.connected = false) :
    Reaches r env j ↔ NoRejection r env j :=
  ⟨noRejection_of_reaches (Nat.zero_lt_of_lt hj) hlimit hcancel,
    reaches_of_noRejection hj hlimit hcancel hbefore⟩

/-- Pools that cannot be reached do not keep the loop from the second address. -/
theorem twoByTwo_reaches : Reaches twoByTwo (fun _ => calmRound silentPeer) 1 :=
  (failover_reaches_iff twoByTwo (fun _ => calmRound silentPeer) 1 (by decide) rfl
    (fun _ => rfl) (by decide +kernel)).mpr (by decide +kernel)

/-- The pool does not like the address. -/
def refusingPeer : Peer :=
  { willingPeer with
    channel := .frame 0x12 (.openMiningChannelError { reqID := 1, error := [0x6e, 0x6f] }) }

/-- A pool that refuses the first address keeps the loop from the second one,
and from the other pool: the first attempt is the last. -/
theorem twoByTwo_refused :
    (made twoByTwo (fun _ => calmRound refusingPeer) 4).map (fun a => (a.addrIdx, a.poolIdx)) =
      [(0, 0)] ∧
    (after twoByTwo (fun _ => calmRound refusingPeer) 4).stopped =
      some (.fatal (.handshake (.poolRejectedChannel [0x6e, 0x6f]))) ∧
    ¬ Reaches twoByTwo (fun _ => calmRound refusingPeer) 1 := by
  refine ⟨by decide +kernel, by decide +kernel, fun hreaches => ?_⟩
  have hnot := noRejection_of_reaches (by decide) rfl (fun _ => rfl) hreaches
  exact absurd hnot (by decide +kernel)

end Otedama.Engine
