import Otedama.Engine.Reconnect

/-! # Rotation past degraded pools

A session that ends because too few shares were accepted leaves a mark on
its pool. Marked pools are left out of the rotation until all of them
are marked; then the marks are forgotten.

The marks are stated twice: as the variable of the loop, and as a function
of the attempts made so far (`marksOf`). The two agree while the loop
runs, so what is said about marks below is said about the history. -/

namespace Otedama.Engine

open List Nat

/-! ## Marks as a function of the history -/

/-- Every pool carries a mark. -/
def AllMarked (n : Nat) (marks : List Nat) : Prop := ∀ p < n, p ∈ marks

instance (n : Nat) (marks : List Nat) : Decidable (AllMarked n marks) :=
  inferInstanceAs (Decidable (∀ p < n, p ∈ marks))

/-- The marks after an attempt, before it is seen whether all pools have one. -/
def markPool (marks : List Nat) (a : Attempt) : List Nat :=
  if isYieldDegraded a.outcome.err then a.poolIdx :: marks else marks

/-- The marks after the attempts: they are forgotten when all pools have one. -/
def marksOf (n : Nat) (as : List Attempt) : List Nat :=
  as.foldl (fun marks a => if AllMarked n (markPool marks a) then [] else markPool marks a) []

theorem marksOf_concat (n : Nat) (as : List Attempt) (a : Attempt) : marksOf n (as ++ [a]) =
      if AllMarked n (markPool (marksOf n as) a) then [] else markPool (marksOf n as) a := by
  unfold marksOf
  rw [foldl_append]
  rfl

/-- The first pool without a mark after `start`, in cyclic order. -/
def FirstUnmarked (n : Nat) (marks : List Nat) (start next : Nat) : Prop :=
  next ∉ marks ∧ ∃ k, 0 < k ∧ k ≤ n ∧ next = (start + k) % n ∧
    ∀ i, 0 < i → i < k → (start + i) % n ∈ marks

/-! ## The walk -/

/-- The loop of `nextFailoverPool`; `none` if it has not returned when the
fuel is used up. -/
def failoverWalk (start n : Nat) (degraded : List Nat) : Nat → Nat → Option Nat
  | 0, _ => none
  | fuel + 1, next =>
      let next := (next + 1) % n
      if next ∉ degraded ∨ next = start then some next else failoverWalk start n degraded fuel next

/-- The walk returns within `n` rounds, as it is then back at its start. -/
theorem failoverWalk_returns {start n : Nat} (hstart : start < n) (degraded : List Nat) :
    failoverWalk start n degraded n start = some (nextFailoverPool start n degraded) := by
  have h := failover_walk hstart degraded (P := fun fuel j =>
    failoverWalk start n degraded fuel ((start + j) % n) =
      some (nextFailoverFrom start n degraded fuel ((start + j) % n))) ?_ ?_
  · rwa [add_zero, Nat.mod_eq_of_lt hstart] at h
  · intro fuel j _ hstop
    rw [nextFailoverFrom_succ, if_pos hstop, failoverWalk, mod_add_mod, add_assoc, if_pos hstop]
  · intro fuel j hgo ih
    rw [nextFailoverFrom_succ, if_neg hgo, failoverWalk, mod_add_mod, add_assoc, if_neg hgo]
    exact ih

/-- Every pool is met on the way around. -/
theorem exists_add_mod {start n p : Nat} (hstart : start < n) (hp : p < n) :
    ∃ i, 0 < i ∧ i ≤ n ∧ (start + i) % n = p := by
  by_cases hlt : start < p
  · refine ⟨p - start, by omega, by omega, ?_⟩
    rw [Nat.add_sub_cancel' hlt.le, Nat.mod_eq_of_lt hp]
  · refine ⟨p + n - start, by omega, by omega, ?_⟩
    have hsum : start + (p + n - start) = p + n := by omega
    rw [hsum, add_mod_right, Nat.mod_eq_of_lt hp]

/-- The loop takes the marks for spent exactly if all pools have one. -/
theorem spent_iff {start n : Nat} (hstart : start < n) (degraded : List Nat) :
    (nextFailoverPool start n degraded = start ∧ start ∈ degraded) ↔ AllMarked n degraded := by
  obtain ⟨k, hpos, hle, heq, hmarked, hstop⟩ := nextFailoverPool_spec hstart degraded
  constructor
  · rintro ⟨hback, hmark⟩
    -- The walk came all the way around, past every other pool.
    have hk : k = n := by
      by_contra hne
      have hkn : k < n := by omega
      rw [heq] at hback
      by_cases hwrap : start + k < n
      · rw [Nat.mod_eq_of_lt hwrap] at hback
        omega
      · have hsub : (start + k) % n = start + k - n := by
          rw [mod_eq_sub_mod (by omega), Nat.mod_eq_of_lt (by omega)]
        omega
    intro p hp
    obtain ⟨i, hi, hin, rfl⟩ := exists_add_mod hstart hp
    by_cases hlast : i = n
    · rw [hlast, add_mod_right, Nat.mod_eq_of_lt hstart]
      exact hmark
    · exact hmarked i hi (by omega)
  · intro hall
    have hlt : nextFailoverPool start n degraded < n := by
      rw [heq]
      exact mod_lt _ (by omega)
    refine ⟨?_, hall start hstart⟩
    obtain hfree | hback := hstop
    · exact absurd (hall _ hlt) hfree
    · exact hback

/-- Otherwise the walk finds the first pool without a mark. -/
theorem nextFailoverPool_firstUnmarked {start n : Nat} (hstart : start < n) {degraded : List Nat}
    (hsome : ¬ AllMarked n degraded) :
    FirstUnmarked n degraded start (nextFailoverPool start n degraded) := by
  obtain ⟨k, hpos, hle, heq, hmarked, hstop⟩ := nextFailoverPool_spec hstart degraded
  refine ⟨?_, k, hpos, hle, heq, hmarked⟩
  intro hmark
  obtain hfree | hback := hstop
  · exact hfree hmark
  · apply hsome
    rw [← spent_iff hstart]
    exact ⟨hback, hback ▸ hmark⟩

/-! ## What a turn does to the marks -/

/-- Where a turn goes from the state `s` in which its session leaves the loop;
`rest` is what the loop does after the attempt. -/
structure Rotated (n : Nat) (s s' : Reconnect) (rest : List Action) : Prop where
  marks : s'.yieldDegradedPools =
    if AllMarked n s.yieldDegradedPools then [] else s.yieldDegradedPools
  free : s'.poolIdx ∉ s'.yieldDegradedPools
  spent : AllMarked n s.yieldDegradedPools → s'.poolIdx = 0 ∧ ∃ d, rest = [.sleep d]
  rotate : ¬ AllMarked n s.yieldDegradedPools → s.addrConnected = true →
    FirstUnmarked n s.yieldDegradedPools s.poolIdx s'.poolIdx ∧
      (rest = [] ↔ s.poolIdx < s'.poolIdx) ∧ (rest = [] ∨ ∃ d, rest = [.sleep d])

section

variable {r : ReconnectOpts} {s : Reconnect}

theorem not_allMarked_nil {n : Nat} (hn : 0 < n) : ¬ AllMarked n [] := by
  intro hall
  cases hall 0 hn

/-- A working address is kept, so the end of a pass is a sleep. -/
theorem afterPools_of_connected (t : Reconnect) (hconn : t.addrConnected = true) (round : Round) :
    t.afterPools r round = t.backOff round := by
  have haddr : t.failoverAddress r.m = (t, false) := if_neg (by simp [hconn])
  unfold Reconnect.afterPools
  rw [haddr]
  rfl

theorem Rotated.connected (hpool : s.poolIdx < r.n) (hn : 1 < r.n) (hconn : s.addrConnected = true)
    (round : Round) : Rotated r.n s (s.failover r round).1 (s.failover r round).2 := by
  unfold Reconnect.failover Reconnect.failoverPool
  rw [if_pos hn]
  dsimp only
  by_cases hall : AllMarked r.n s.yieldDegradedPools
  · -- The marks are spent: pool 0, after a sleep.
    rw [if_pos ((spent_iff hpool _).mpr hall)]
    dsimp only
    rw [if_neg Bool.false_ne_true,
      afterPools_of_connected { s with poolIdx := 0, yieldDegradedPools := [] } hconn]
    obtain ⟨hidx, -, -, hmarks, -, hsleep⟩ :=
      backOff_spec { s with poolIdx := 0, yieldDegradedPools := [] } round
    refine ⟨?_, ?_, fun _ => ⟨hidx, hsleep⟩, fun hnot => absurd hall hnot⟩
    · rw [hmarks, if_pos hall]
    · rw [hmarks]
      exact not_mem_nil
  · rw [if_neg fun hspent => hall ((spent_iff hpool _).mp hspent)]
    have hfirst := nextFailoverPool_firstUnmarked hpool hall
    dsimp only
    by_cases hgt : s.poolIdx < nextFailoverPool s.poolIdx r.n s.yieldDegradedPools
    · rw [if_pos (by simpa using hgt)]
      refine ⟨(if_neg hall).symm, hfirst.1, fun h => absurd h hall, fun _ _ => ?_⟩
      exact ⟨hfirst, iff_of_true rfl hgt, .inl rfl⟩
    · rw [if_neg (by simpa using hgt), afterPools_of_connected
        { s with poolIdx := nextFailoverPool s.poolIdx r.n s.yieldDegradedPools } hconn]
      obtain ⟨hidx, -, -, hmarks, -, d, hsleep⟩ := backOff_spec
        { s with poolIdx := nextFailoverPool s.poolIdx r.n s.yieldDegradedPools } round
      refine ⟨?_, ?_, fun h => absurd h hall, fun _ _ => ?_⟩
      · rw [hmarks, if_neg hall]
      · rw [hmarks, hidx]
        exact hfirst.1
      · rw [hidx]
        refine ⟨hfirst, iff_of_false ?_ hgt, .inr ⟨d, hsleep⟩⟩
        rw [hsleep]
        simp

/-- As long as nothing has connected there are no marks. -/
theorem Rotated.fresh (hinv : ReconnectInv r s) (hrun : s.stopped = none)
    (hnot : s.addrConnected = false) (round : Round) :
    Rotated r.n s (s.failover r round).1 (s.failover r round).2 := by
  have hadvance := Advance.failover hinv hrun round
  have hmarks := hinv.fresh hnot
  have hmarks' := hadvance.inv.fresh (hadvance.addrConnected.trans hnot)
  have hsome : ¬ AllMarked r.n s.yieldDegradedPools := by
    rw [hmarks]
    exact not_allMarked_nil (zero_lt_of_lt hinv.poolIdx)
  refine ⟨?_, ?_, fun h => absurd h hsome, fun _ hconn => ?_⟩
  · rw [if_neg hsome, hmarks, hmarks']
  · rw [hmarks']
    exact not_mem_nil
  · rw [hnot] at hconn
    cases hconn

section

variable (hinv : ReconnectInv r s) (hn : 1 < r.n) (hrun : s.stopped = none)

include hinv hn hrun

theorem Rotated.failover (round : Round) :
    Rotated r.n s (s.failover r round).1 (s.failover r round).2 := by
  cases hconn : s.addrConnected with
  | true => exact Rotated.connected hinv.poolIdx hn hconn round
  | false => exact Rotated.fresh hinv hrun hconn round

/-- The end of a session after which the loop goes on. -/
theorem Rotated.endSession (round : Round) {o : Outcome}
    (hmark : isYieldDegraded o.err = true → o.connected = true)
    (hon : (s.endSession r round o).1.stopped = none) :
    Rotated r.n (s.afterSession o) (s.endSession r round o).1 (s.endSession r round o).2 := by
  have hinv' := afterSession_inv hinv hmark
  unfold Reconnect.endSession at hon ⊢
  by_cases hcancel : round.cancel = .inSession
  · rw [if_pos hcancel] at hon
    cases hon
  · rw [if_neg hcancel] at hon ⊢
    by_cases hfatal : isFatal o.err = true
    · rw [if_pos hfatal] at hon
      cases hon
    · rw [if_neg hfatal]
      generalize (if o.connected then reconnectBackoffInitial else s.backoff) = delay
      have hdelayed : ReconnectInv r { s.afterSession o with backoff := delay } :=
        ⟨hinv'.poolIdx, hinv'.addrIdx, hinv'.fresh⟩
      have h := Rotated.failover hdelayed hn hrun round
      exact ⟨h.marks, h.free, h.spent, h.rotate⟩

/-- A turn with an attempt after which the loop goes on. -/
theorem Rotated.step {round : Round} {s' : Reconnect} {a : Attempt} {rest : List Action}
    (hstep : Reconnect.step r s round = (s', .attempt a :: rest)) (hon : s'.stopped = none) :
    Rotated r.n (s.afterSession a.outcome) s' rest := by
  unfold Reconnect.step at hstep
  rw [if_neg (by simp [hrun])] at hstep
  by_cases hhead : round.cancel = .atHead
  · rw [if_pos hhead] at hstep
    cases hstep
  · rw [if_neg hhead] at hstep
    dsimp only at hstep
    by_cases hlimit : 0 < r.maxReconnectAttempts ∧ r.maxReconnectAttempts < s.attempt + 1
    · rw [if_pos hlimit] at hstep
      cases hstep
    · rw [if_neg hlimit] at hstep
      cases hstep
      have h := Rotated.endSession hinv.counted hn hrun round connected_of_isYieldDegraded hon
      exact ⟨h.marks, h.free, h.spent, h.rotate⟩

end

end

/-! ## Whole runs -/

/-- What is to come after the attempt `a`, made after the attempts `before`:
`mid` is done first, and the next attempt is on `pool`. -/
structure NextPool (n : Nat) (before : List Attempt) (a : Attempt) (mid : List Action)
    (pool : Nat) : Prop where
  /-- All pools are marked: back to the first one, after a sleep. -/
  spent : AllMarked n (markPool (marksOf n before) a) → pool = 0 ∧ ∃ d, mid = [.sleep d]
  /-- Otherwise on to the next pool without a mark, at once if it is a later
      one and after a sleep if not. -/
  rotate : ¬ AllMarked n (markPool (marksOf n before) a) →
    (∃ c ∈ before ++ [a], c.outcome.connected = true) →
      FirstUnmarked n (markPool (marksOf n before) a) a.poolIdx pool ∧
        (mid = [] ↔ a.poolIdx < pool) ∧ (mid = [] ∨ ∃ d, mid = [.sleep d])

/-- What the actions so far say about the rotation. -/
structure RotationInv (r : ReconnectOpts) (actions : List Action) (s : Reconnect) : Prop where
  trace : TraceInv r actions s
  marks : s.stopped = none → s.yieldDegradedPools = marksOf r.n (attempts actions)
  free : s.stopped = none → s.poolIdx ∉ s.yieldDegradedPools
  dialled : ∀ pre a, pre ++ [a] <+: attempts actions → a.poolIdx ∉ marksOf r.n pre
  /-- Where the loop stands after its last attempt. -/
  last : s.stopped = none → ∀ xs a mid, actions = xs ++ .attempt a :: mid → attempts mid = [] →
    NextPool r.n (attempts xs) a mid s.poolIdx
  pairs : ∀ xs a mid b ys, actions = xs ++ .attempt a :: (mid ++ .attempt b :: ys) →
    attempts mid = [] → NextPool r.n (attempts xs) a mid b.poolIdx

section

variable {r : ReconnectOpts} {s : Reconnect} {actions : List Action}

theorem attempts_ne_nil (l : List Action) (a : Attempt) (l' : List Action) :
    attempts (l ++ .attempt a :: l') ≠ [] := by
  rw [attempts_append]
  exact append_ne_nil_of_right_ne_nil _ (cons_ne_nil a _)

/-- An attempt of a list that ends with an attempt: it is old, or the last one. -/
theorem attempt_cases {xs mid rest : List Action} {a c : Attempt}
    (h : actions ++ .attempt c :: rest = xs ++ .attempt a :: mid) (hrest : attempts rest = []) :
    (∃ zs, actions = xs ++ .attempt a :: zs ∧ mid = zs ++ .attempt c :: rest) ∨
      (actions = xs ∧ c = a ∧ rest = mid) := by
  obtain ⟨zs, rfl, hzs⟩ | ⟨zs, rfl, hzs⟩ := append_eq_append_iff.mp h
  · cases zs with
    | nil =>
      obtain ⟨hhead, rfl⟩ := cons.inj hzs
      cases hhead
      exact .inr ⟨(append_nil _).symm, rfl, rfl⟩
    | cons z zs =>
      obtain ⟨-, rfl⟩ := cons.inj hzs
      exact absurd hrest (attempts_ne_nil zs a mid)
  · cases zs with
    | nil =>
      obtain ⟨hhead, rfl⟩ := cons.inj hzs
      cases hhead
      exact .inr ⟨append_nil _, rfl, rfl⟩
    | cons z zs =>
      obtain ⟨rfl, rfl⟩ := cons.inj hzs
      exact .inl ⟨zs, rfl, rfl⟩

/-- A list of actions has one last attempt. -/
theorem last_attempt_unique {xs ys mid rest : List Action} {a b : Attempt}
    (h : xs ++ .attempt a :: mid = ys ++ .attempt b :: rest) (hmid : attempts mid = [])
    (hrest : attempts rest = []) : xs = ys ∧ a = b ∧ mid = rest := by
  obtain ⟨zs, -, rfl⟩ | hsame := attempt_cases h hmid
  · exact absurd hrest (attempts_ne_nil zs a mid)
  · exact hsame

/-- Two attempts of a list that ends with an attempt: both are old, or the
second is the new one. -/
theorem pair_cases {xs mid ys rest : List Action} {a b c : Attempt}
    (h : actions ++ .attempt c :: rest = xs ++ .attempt a :: (mid ++ .attempt b :: ys))
    (hrest : attempts rest = []) :
    (∃ ys', actions = xs ++ .attempt a :: (mid ++ .attempt b :: ys')) ∨
      (actions = xs ++ .attempt a :: mid ∧ b = c) := by
  rw [← cons_append, ← append_assoc] at h
  obtain ⟨zs, hold, -⟩ | ⟨hnew, rfl, -⟩ := attempt_cases h hrest
  · exact .inl ⟨zs, by simp [hold]⟩
  · exact .inr ⟨hnew, rfl⟩

theorem Advance.attempts_rest {s' : Reconnect} {rest : List Action} (h : Advance r s s' rest) :
    attempts rest = [] := by
  obtain ⟨rfl, -⟩ | ⟨d, rfl⟩ := h.paced
  · rfl
  · rfl

theorem RotationInv.start (hm : 0 < r.m) : RotationInv r [] Reconnect.start where
  trace := TraceInv.start hm
  marks := fun _ => rfl
  free := fun _ => not_mem_nil
  dialled := fun pre a hle => absurd (prefix_nil.mp hle) (by simp)
  last := fun _ xs a mid h => by simp at h
  pairs := fun xs a mid b ys h => by simp at h

/-- A turn with an attempt. -/
theorem RotationInv.attempt (h : RotationInv r actions s) (hrun : s.stopped = none) {a : Attempt}
    (hpool : a.poolIdx = s.poolIdx) (haddr : a.addrIdx = s.addrIdx) {s' : Reconnect}
    {rest : List Action} (hadvance : Advance r (s.afterSession a.outcome) s' rest)
    (hrotated : s'.stopped = none → Rotated r.n (s.afterSession a.outcome) s' rest) :
    RotationInv r (actions ++ .attempt a :: rest) s' := by
  have hattempts : attempts (actions ++ .attempt a :: rest) = attempts actions ++ [a] := by
    rw [attempts_append, hadvance.attempts_cons]
  have hrest := hadvance.attempts_rest
  have hmarks : (s.afterSession a.outcome).yieldDegradedPools =
      markPool (marksOf r.n (attempts actions)) a := by
    unfold Reconnect.afterSession markPool
    rw [h.marks hrun, hpool]
  have htrace := h.trace.attempt hrun hpool haddr hadvance
  refine ⟨htrace, ?_, ?_, ?_, ?_, ?_⟩
  · intro hon
    rw [hattempts, marksOf_concat, (hrotated hon).marks, hmarks]
  · intro hon
    exact (hrotated hon).free
  · rw [hattempts]
    intro pre b hle
    obtain heq | hold := prefix_concat_iff.mp hle
    · obtain ⟨rfl, rfl⟩ := append_singleton_inj.mp heq
      rw [hpool, ← h.marks hrun]
      exact h.free hrun
    · exact h.dialled pre b hold
  · intro hon xs b mid heq hmid
    obtain ⟨rfl, rfl, rfl⟩ := last_attempt_unique heq hrest hmid
    have hturn := hrotated hon
    constructor
    · rw [← hmarks]
      exact hturn.spent
    · rw [← hmarks]
      rintro hsome ⟨c, hc, hconn⟩
      have hworking := (htrace.working c (hattempts ▸ hc) hconn).2
      rw [hpool]
      exact hturn.rotate hsome (hadvance.addrConnected.symm.trans hworking)
  · intro xs b mid c ys heq hmid
    obtain ⟨ys', hold⟩ | ⟨hold, rfl⟩ := pair_cases heq hrest
    · exact h.pairs xs b mid c ys' hold hmid
    · rw [hpool]
      exact h.last hrun xs b mid hold hmid

theorem RotationInv.step (hn : 1 < r.n) (h : RotationInv r actions s) (round : Round) :
    RotationInv r (actions ++ (Reconnect.step r s round).2) (Reconnect.step r s round).1 := by
  cases hrun : s.stopped with
  | some stop =>
    rw [step_of_stopped hrun, append_nil]
    exact h
  | none =>
    have htrace := h.trace.step round
    obtain ⟨s', hstep, hstop, -⟩ | ⟨s', rest, hstep, hadvance⟩ := step_cases h.trace.inv hrun round
    · -- The loop returns without another attempt.
      rw [hstep] at htrace ⊢
      rw [append_nil] at htrace ⊢
      have hnot : s'.stopped ≠ none := by
        intro hnone
        rw [hnone] at hstop
        cases hstop
      exact ⟨htrace, fun hon => absurd hon hnot, fun hon => absurd hon hnot, h.dialled,
        fun hon => absurd hon hnot, h.pairs⟩
    · have hrotated := Rotated.step h.trace.inv hn hrun hstep
      rw [hstep]
      exact h.attempt hrun rfl rfl hadvance hrotated

end

theorem rotationInv_run {r : ReconnectOpts} (hn : 1 < r.n) (hm : 0 < r.m) (rounds : List Round) :
    RotationInv r ((reconnectLoop r).outputs Reconnect.start rounds)
      ((reconnectLoop r).run Reconnect.start rounds) :=
  (reconnectLoop r).run_history (P := fun _ actions s => RotationInv r actions s)
    (Q := fun _ => True) (RotationInv.start hm) (fun _ _ _ round _ h => h.step hn round) rounds
    fun _ _ => trivial

/-- **Degraded pools are left out until all are degraded.**  With two pools or
more, in every run of the loop: no attempt is on a pool that is marked; the
marks of the loop are those of the history, where they are forgotten when
all pools have one; between two attempts the loop goes on as `NextPool`
says; and the walk to the next pool returns from every pool and for all
marks. -/
theorem yield_rotation (r : ReconnectOpts) (hn : 1 < r.n) (hm : 0 < r.m) (rounds : List Round) :
    (∀ pre a, pre ++ [a] <+: attempts ((reconnectLoop r).outputs Reconnect.start rounds) →
      a.poolIdx ∉ marksOf r.n pre) ∧
    (((reconnectLoop r).run Reconnect.start rounds).stopped = none →
      ((reconnectLoop r).run Reconnect.start rounds).yieldDegradedPools =
        marksOf r.n (attempts ((reconnectLoop r).outputs Reconnect.start rounds))) ∧
    (∀ xs a mid b ys, (reconnectLoop r).outputs Reconnect.start rounds =
        xs ++ .attempt a :: (mid ++ .attempt b :: ys) → attempts mid = [] →
      NextPool r.n (attempts xs) a mid b.poolIdx) ∧
    ∀ n start, start < n → ∀ degraded, ∃ fuel, failoverWalk start n degraded fuel start =
      some (nextFailoverPool start n degraded) := by
  have hinv := rotationInv_run hn hm rounds
  refine ⟨hinv.dialled, hinv.marks, hinv.pairs, ?_⟩
  intro n start hstart degraded
  exact ⟨n, failoverWalk_returns hstart degraded⟩

/-- The pool accepts too few shares. -/
def wastefulPeer : Peer := { willingPeer with loopEnd := .yieldDegraded }

/-- Both pools are found to be wasteful; then the loop sleeps, starts over, and
may use them again. -/
theorem twoByTwo_rotation :
    (attempts ((reconnectLoop twoByTwo).outputs Reconnect.start
        [calmRound wastefulPeer, calmRound silentPeer, calmRound wastefulPeer,
         calmRound silentPeer])).map (fun a => (a.poolIdx, isYieldDegraded a.outcome.err)) =
      [(0, true), (1, false), (1, true), (0, false)] ∧
    ∀ pre a, pre ++ [a] <+: attempts ((reconnectLoop twoByTwo).outputs Reconnect.start
        [calmRound wastefulPeer, calmRound silentPeer, calmRound wastefulPeer,
         calmRound silentPeer]) → a.poolIdx ∉ marksOf twoByTwo.n pre :=
  ⟨by decide +kernel, (yield_rotation twoByTwo (by decide) (by decide) _).1⟩

end Otedama.Engine
