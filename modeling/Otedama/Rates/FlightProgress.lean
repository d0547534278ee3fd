import Otedama.Rates.SingleFlight

/-! # No call stays blocked

A call that waits for another call's `doFetch` is released by the close
of a channel, which is three steps away once that `doFetch` has ended: the
leader unregisters its record, writes the error and closes the channel.

A call is `Unblocked` if its next step is its own and can be taken. The
number of own steps that are left (`Phase.remaining`) falls with each of
them, and no step of another call raises it or blocks the call again. So
in a run that is fair to the calls every unblocked call returns; a
waiting call is unblocked once its leader has returned.

When `doFetch` ends is not up to the scheduler: its end is no step of the
call for the purposes of fairness. -/

namespace Otedama.Rates

open FlightLabel

variable {ε : Type*} {s s' : Flights ε} {l : FlightLabel ε} {c c' : CallId} {p : Ref}

/-! ## Own steps -/

/-- The steps that the call takes as soon as it is scheduled. -/
def FlightLabel.moves (c : CallId) : FlightLabel ε → Prop
  | .enter c' | .clear c' | .write c' | .close c' | .ret c' | .receive c' | .read c'
  | .abandon c' => c' = c
  | .call _ | .cancel _ _ | .finish _ _ _ => False

theorem FlightLabel.actor_of_moves (h : l.moves c) : l.actor = c := by
  cases l with
  | call _ => cases h
  | cancel _ _ => cases h
  | finish _ _ _ => cases h
  | _ => exact h

/-- How many own steps the call has left, once nothing blocks it. -/
def Phase.remaining : Phase ε → Nat
  | .ended _ _ => 4
  | .cleared _ _ => 3
  | .written _ _ => 2
  | .closed _ _ => 1
  | .waiting _ => 2
  | .woken _ => 1
  | _ => 0

/-- The call waits neither for a channel nor for its `doFetch`. -/
def Flights.Unblocked (s : Flights ε) (c : CallId) : Prop :=
  match s.phase c with
  | .ended _ _ | .cleared _ _ | .written _ _ | .closed _ _ | .woken _ => True
  | .waiting p => 0 < (s.records.read p).closes
  | _ => False

/-- A closed channel stays closed. -/
theorem FlightStep.closes_mono (h : FlightStep s l s') (hp : 0 < (s.records.read p).closes) :
    0 < (s'.records.read p).closes := by
  have hlt : p < s.records.size := by
    by_contra hge
    rw [Heap.read_of_size_le (Nat.le_of_not_lt hge)] at hp
    cases hp
  cases h with
  | lead h _ =>
    show 0 < ((s.records.alloc {}).read p).closes
    rwa [Heap.read_alloc_of_lt hlt]
  | @write c q err h =>
    show 0 < ((s.records.write q { closes := (s.records.read q).closes, err := err }).read p).closes
    by_cases hq : p = q
    · subst hq
      rwa [Heap.read_write_self hlt]
    · rwa [Heap.read_write_ne hq]
  | @close c q err h =>
    show 0 < ((s.records.write q
      { closes := (s.records.read q).closes + 1, err := (s.records.read q).err }).read p).closes
    by_cases hq : p = q
    · subst hq
      rw [Heap.read_write_self hlt]
      exact Nat.succ_pos _
    · rwa [Heap.read_write_ne hq]
  | _ => exact hp

/-- No step of another call blocks a call. -/
theorem Flights.Unblocked.of_phase_eq (hs : s.Unblocked c) (h : FlightStep s l s')
    (hph : s'.phase c = s.phase c) : s'.Unblocked c := by
  unfold Unblocked at hs ⊢
  rw [hph]
  cases hcase : s.phase c with
  | waiting p =>
    rw [hcase] at hs
    exact h.closes_mono hs
  | _ =>
    rw [hcase] at hs
    exact hs

/-- An unblocked call returns, or stays unblocked with no more steps left
than before; after a step of its own there are fewer. -/
theorem Flights.Unblocked.step (hs : s.Unblocked c) (h : FlightStep s l s') :
    (s'.phase c).result ≠ none ∨ s'.Unblocked c ∧ (s'.phase c).remaining ≤ (s.phase c).remaining ∧
      (l.moves c → (s'.phase c).remaining < (s.phase c).remaining) := by
  by_cases hc : c = l.actor
  · subst hc
    cases h with
    | cancel h => exact .inr ⟨hs, le_rfl, fun hm => by cases hm⟩
    | call h | join h _ | lead h _ | finish h =>
      -- An unblocked call is past these steps.
      simp [Unblocked, actor, h] at hs
    | clear h | write h | close h | receive h _ =>
      right
      simp [Unblocked, actor, update, Phase.remaining, h]
    | ret h | read h | abandon h _ =>
      left
      simp [actor, Phase.result]
  · right
    have hph := h.phase_of_ne hc
    refine ⟨hs.of_phase_eq h hph, by rw [hph], fun hm => ?_⟩
    exact absurd (actor_of_moves hm).symm hc

theorem enabled_of_step (h : FlightStep s l s') (hm : l.moves c) :
    singleFlight.Enabled (moves c) s :=
  ⟨l, hm, by rw [singleFlight_next_iff.mpr h]; rfl⟩

/-- An unblocked call can take a step. -/
theorem Flights.Unblocked.enabled (hs : s.Unblocked c) : singleFlight.Enabled (moves c) s := by
  unfold Unblocked at hs
  cases hph : s.phase c with
  | ended p err => exact enabled_of_step (.clear hph) rfl
  | cleared p err => exact enabled_of_step (.write hph) rfl
  | written p err => exact enabled_of_step (.close hph) rfl
  | closed p err => exact enabled_of_step (.ret hph) rfl
  | woken p => exact enabled_of_step (.read hph) rfl
  | waiting p =>
    rw [hph] at hs
    exact enabled_of_step (.receive hph hs) rfl
  | _ =>
    rw [hph] at hs
    cases hs

/-- A call that has not been made or has returned takes no step. -/
theorem not_enabled_of_done (h : s.phase c = .idle ∨ (s.phase c).result ≠ none) :
    ¬ singleFlight.Enabled (moves c) s := by
  rintro ⟨l, hm, hsome⟩
  obtain ⟨s', hnext⟩ := Option.isSome_iff_exists.mp hsome
  have hstep := singleFlight_next_iff.mp hnext
  cases hstep with
  | call _ => cases hm
  | cancel _ => cases hm
  | finish _ => cases hm
  | join hph _ | lead hph _ | clear hph | write hph | close hph | ret hph | receive hph _
  | read hph | abandon hph _ =>
    obtain rfl := hm
    rw [hph] at h
    rcases h with hidle | hres
    · cases hidle
    · exact hres rfl

/-- The first own step of a call takes it past the first critical section. -/
theorem FlightStep.phase_of_called (h : FlightStep s l s') (hs : s.phase c = .called) :
    (s'.phase c ≠ .idle ∧ s'.phase c ≠ .called) ∨ s'.phase c = .called ∧ ¬ l.moves c := by
  by_cases hc : c = l.actor
  · subst hc
    cases h with
    | cancel h => exact .inr ⟨hs, fun hm => hm⟩
    | join h _ | lead h _ => exact .inl (by simp [actor, Flights.lead])
    | call h | finish h | clear h | write h | close h | ret h | receive h _ | read h
    | abandon h _ =>
      rw [actor, h] at hs
      cases hs
  · rw [h.phase_of_ne hc]
    exact .inr ⟨hs, fun hm => hc (actor_of_moves hm).symm⟩

/-- The call has joined the record `p`. -/
def Phase.Joins (p : Ref) (ph : Phase ε) : Prop :=
  ph = .waiting p ∨ ph = .woken p ∨ ∃ r, ph = .joined p r

/-- A call stays with the record it has joined. -/
theorem FlightStep.joins_keep (h : FlightStep s l s') (hs : (s.phase c).Joins p) :
    (s'.phase c).Joins p := by
  by_cases hc : c = l.actor
  · subst hc
    unfold Phase.Joins at hs ⊢
    cases h with
    | cancel h => exact hs
    | receive h _ | read h | abandon h _ => simp_all [actor]
    | call h | join h _ | lead h _ | finish h | clear h | write h | close h | ret h =>
      simp [actor, h] at hs
  · rwa [h.phase_of_ne hc]

/-! ## Fair runs -/

section

variable {f : Fetcher} (r : (singleFlight (ε := ε)).Run (noFlights f)) {k : Nat}

theorem flightInv_run (k : Nat) : ∃ hist, FlightInv f hist (r.state k) := by
  obtain ⟨ls, hls⟩ := r.exists_exec k
  exact ⟨ls, flightInv_exec hls⟩

variable (hfair : ∀ c, r.Fair (FlightLabel.moves c))

include hfair

/-- An unblocked call returns. -/
theorem returns_of_unblocked (h : (r.state k).Unblocked c) :
    ∃ j, k ≤ j ∧ ((r.state j).phase c).result ≠ none := by
  refine r.leadsTo_of_rank (hfair c) (I := fun _ => True) (P := fun s => s.Unblocked c)
    (Q := fun s => (s.phase c).result ≠ none) (μ := fun s => (s.phase c).remaining)
    (fun _ _ => trivial) ?_ ?_ h
  · intro s l s' _ _ hs hnext
    exact hs.step (singleFlight_next_iff.mp hnext)
  · intro s _ hs
    exact hs.enabled

/-- A call gets past the first critical section. -/
theorem enters_of_called (h : (r.state k).phase c = .called) :
    ∃ j, k ≤ j ∧ (r.state j).phase c ≠ .idle ∧ (r.state j).phase c ≠ .called := by
  refine r.leadsTo_of_rank (hfair c) (I := fun _ => True) (P := fun s => s.phase c = .called)
    (Q := fun s => s.phase c ≠ .idle ∧ s.phase c ≠ .called) (μ := fun _ => 0)
    (fun _ _ => trivial) ?_ ?_ h
  · intro s l s' _ _ hs hnext
    rcases (singleFlight_next_iff.mp hnext).phase_of_called hs with hentered | ⟨hsame, hnot⟩
    · exact .inl hentered
    · exact .inr ⟨hsame, le_rfl, fun hm => absurd hm hnot⟩
  · intro s _ hs
    cases hinf : s.inflight with
    | some p => exact enabled_of_step (.join hs hinf) rfl
    | none => exact enabled_of_step (.lead hs hinf) rfl

/-- A leader whose `doFetch` has ended returns. -/
theorem returns_of_leads (hl : ((r.state k).phase c).leads = some p)
    (hrun : (r.state k).phase c ≠ .running p) :
    ∃ j err, k ≤ j ∧ (r.state j).phase c = .led p err := by
  have hres : ∃ j, k ≤ j ∧ ((r.state j).phase c).result ≠ none := by
    cases hph : (r.state k).phase c with
    | led q err => exact ⟨k, le_rfl, by simp [hph, Phase.result]⟩
    | running q =>
      rw [hph] at hl hrun
      cases hl
      exact absurd rfl hrun
    | ended q err | cleared q err | written q err | closed q err =>
      exact returns_of_unblocked r hfair (by simp [Flights.Unblocked, hph])
    | _ =>
      rw [hph] at hl
      cases hl
  obtain ⟨j, hkj, hres⟩ := hres
  -- It still leads the record, so it has returned as a leader.
  have hl' : ((r.state j).phase c).leads = some p :=
    r.invariant (P := fun s => (s.phase c).leads = some p)
      (fun s l s' hs hnext => (singleFlight_next_iff.mp hnext).leads_keep hs) hkj hl
  cases hph : (r.state j).phase c with
  | led q err =>
    rw [hph] at hl'
    cases hl'
    exact ⟨j, err, hkj, hph⟩
  | joined q x =>
    rw [hph] at hl'
    cases hl'
  | _ =>
    rw [hph] at hres
    exact absurd rfl hres

/-- A call that has joined a record returns if the `doFetch` of its leader has
ended. -/
theorem returns_of_joins (hj : ((r.state k).phase c).Joins p)
    (hl : ((r.state k).phase c').leads = some p) (hrun : (r.state k).phase c' ≠ .running p) :
    ∃ j, k ≤ j ∧ ((r.state j).phase c).result ≠ none := by
  obtain ⟨j, err, hkj, hled⟩ := returns_of_leads r hfair hl hrun
  -- When its leader has returned the channel is closed.
  have hclosed : 0 < ((r.state j).records.read p).closes := by
    obtain ⟨hist, hinv⟩ := flightInv_run r j
    have hst := hinv.standing c'
    rw [hled] at hst
    rw [hst.1]
    exact Nat.zero_lt_one
  have hj' : ((r.state j).phase c).Joins p :=
    r.invariant (P := fun s => (s.phase c).Joins p)
      (fun s l s' hs hnext => (singleFlight_next_iff.mp hnext).joins_keep hs) hkj hj
  rcases hj' with hwait | hwoken | ⟨x, hjoined⟩
  · obtain ⟨i, hji, hres⟩ := returns_of_unblocked r hfair
      (show (r.state j).Unblocked c by simp [Flights.Unblocked, hwait, hclosed])
    exact ⟨i, hkj.trans hji, hres⟩
  · obtain ⟨i, hji, hres⟩ := returns_of_unblocked r hfair
      (show (r.state j).Unblocked c by simp [Flights.Unblocked, hwoken])
    exact ⟨i, hkj.trans hji, hres⟩
  · exact ⟨j, hkj, by simp [hjoined, Phase.result]⟩

/-- Once no `doFetch` is running, every call that is past the first critical
section returns. -/
theorem returns_of_entered (hnone : ∀ c p, (r.state k).phase c ≠ .running p)
    (hidle : (r.state k).phase c ≠ .idle) (hcalled : (r.state k).phase c ≠ .called) :
    ∃ j, k ≤ j ∧ ((r.state j).phase c).result ≠ none := by
  obtain ⟨hist, hinv⟩ := flightInv_run r k
  have hst := hinv.standing c
  -- A leader is past its `doFetch`; a call that waits has such a leader.
  have hled : ∀ p, ((r.state k).phase c).leads = some p →
      ∃ j, k ≤ j ∧ ((r.state j).phase c).result ≠ none := by
    intro p hl
    obtain ⟨j, err, hkj, hled⟩ := returns_of_leads r hfair hl (hnone c p)
    exact ⟨j, hkj, by simp [hled, Phase.result]⟩
  cases hph : (r.state k).phase c with
  | idle => exact absurd hph hidle
  | called => exact absurd hph hcalled
  | waiting p =>
    rw [hph] at hst
    obtain ⟨c', -, hl⟩ := hst
    exact returns_of_joins r hfair (.inl hph) hl (hnone c' p)
  | woken p =>
    rw [hph] at hst
    obtain ⟨c', -, hl, -⟩ := hst
    exact returns_of_joins r hfair (.inr (.inl hph)) hl (hnone c' p)
  | joined p x => exact ⟨k, le_rfl, by simp [hph, Phase.result]⟩
  | running p | ended p err | cleared p err | written p err | closed p err | led p err =>
    exact hled p (by rw [hph]; rfl)

/-- If no `doFetch` runs any more, every call that has been made returns. -/
theorem returns_of_quiet (hnone : ∀ j, k ≤ j → ∀ c p, (r.state j).phase c ≠ .running p)
    (hidle : (r.state k).phase c ≠ .idle) : ∃ j, k ≤ j ∧ ((r.state j).phase c).result ≠ none := by
  by_cases hcalled : (r.state k).phase c = .called
  · obtain ⟨j, hkj, hidle', hcalled'⟩ := enters_of_called r hfair hcalled
    obtain ⟨i, hji, hres⟩ := returns_of_entered r hfair (hnone j hkj) hidle' hcalled'
    exact ⟨i, hkj.trans hji, hres⟩
  · exact returns_of_entered r hfair (hnone k le_rfl) hidle hcalled

end

/-! ## One fetch at a time -/

/-- Over every interleaving of any number of calls: at most one `doFetch`
runs; a call returns the error of its own `doFetch`, or that of the
`doFetch` that was registered when it arrived and has ended, or the error
of its own context; no channel is closed twice. In a run that is fair to
the calls, those past the first critical section return once no `doFetch`
is running, and all return if none runs any more. -/
theorem fetch_single_flight (f : Fetcher) :
    (∀ (ls : List (FlightLabel ε)) s, singleFlight.exec (noFlights f) ls = some s →
      (∀ c c' p p', s.phase c = .running p → s.phase c' = .running p' → c = c') ∧
      (∀ c x, (s.phase c).result = some x →
        (∃ p err, x = .outcome err ∧ FinishedAt f ls c p err) ∨
        (∃ c' p err, x = .outcome err ∧ JoinedAt f ls c c' p ∧ FinishedAt f ls c' p err) ∨
        ∃ err, x = .ctxErr err ∧ s.ctxErr c = some err) ∧
      ∀ p, (s.records.read p).closes ≤ 1) ∧
    ∀ r : (singleFlight (ε := ε)).Run (noFlights f), (∀ c, r.Fair (FlightLabel.moves c)) →
      ∀ k, ((∀ c p, (r.state k).phase c ≠ .running p) →
          ∀ c, (r.state k).phase c ≠ .idle → (r.state k).phase c ≠ .called →
            ∃ j, k ≤ j ∧ ((r.state j).phase c).result ≠ none) ∧
        ((∀ j, k ≤ j → ∀ c p, (r.state j).phase c ≠ .running p) →
          ∀ c, (r.state k).phase c ≠ .idle →
            ∃ j, k ≤ j ∧ ((r.state j).phase c).result ≠ none) := by
  constructor
  · intro ls s hexec
    have hinv := flightInv_exec hexec
    exact ⟨fun c c' p p' => hinv.leads.running_unique hinv.registered, fun c x => hinv.result_cases,
      hinv.closes_le_one⟩
  · intro r hfair k
    exact ⟨fun hnone c => returns_of_entered r hfair hnone,
      fun hnone c => returns_of_quiet r hfair hnone⟩

theorem phase_eq_idle {f : Fetcher} {ls : List (FlightLabel ε)}
    (h : singleFlight.exec (noFlights f) ls = some s) (hc : ∀ l ∈ ls, l.actor ≠ c) :
    s.phase c = .idle := by
  refine singleFlight.exec_history
    (P := fun hist s => (∀ l ∈ hist, l.actor ≠ c) → s.phase c = .idle) (fun _ => rfl) ?_ ls h hc
  intro hist s l s' _ ih hnext hactors
  rw [(singleFlight_next_iff.mp hnext).phase_of_ne (hactors l (by simp)).symm]
  exact ih fun l' hl' => hactors l' (by simp [hl'])

/-- The second call arrives while the first one fetches, and shares the
outcome. -/
def sampleFlight : List (FlightLabel String) :=
  [.call 0, .call 1, .enter 0, .enter 1, .finish 0 7 sampleResults, .clear 0, .write 0, .close 0,
    .receive 1, .read 1, .ret 0]

theorem fetch_single_flight_shared :
    ∃ r : (singleFlight (ε := String)).Run (noFlights (newFetcher 50000)),
      (∀ c, r.Fair (FlightLabel.moves c)) ∧ (r.state 5).phase 1 = .waiting 0 ∧
      ∃ j, 5 ≤ j ∧ ((r.state j).phase 1).result ≠ none := by
  have hsome : (singleFlight.exec (noFlights (newFetcher 50000)) sampleFlight).isSome := rfl
  have hs := (Option.some_get hsome).symm
  have hactor : ∀ l ∈ sampleFlight, l.actor ≤ 1 := by
    simp [sampleFlight, FlightLabel.actor]
  have hother : ∀ k c, 1 < c → ((LTS.Run.ofExec hs).state k).phase c = .idle := by
    intro k c hc
    refine phase_eq_idle (LTS.Run.exec_ofExec hs k) fun l hl => ?_
    exact Nat.ne_of_lt ((hactor l (List.mem_of_mem_take hl)).trans_lt hc)
  have hcases : ∀ c : CallId, c = 0 ∨ c = 1 ∨ 1 < c := by
    intro c
    rcases Nat.lt_trichotomy c 1 with hlt | heq | hgt
    · exact .inl (Nat.lt_one_iff.mp hlt)
    · exact .inr (.inl heq)
    · exact .inr (.inr hgt)
  -- At the end both calls have returned and there are no others.
  have hfair : ∀ c, (LTS.Run.ofExec hs).Fair (FlightLabel.moves c) := by
    intro c
    refine LTS.Run.ofExec_fair hs (not_enabled_of_done ?_)
    rcases hcases c with rfl | rfl | hc
    · exact .inr (Option.isSome_iff_ne_none.mp rfl)
    · exact .inr (Option.isSome_iff_ne_none.mp rfl)
    · rw [← LTS.Run.ofExec_state hs (Nat.le_refl _)]
      exact .inl (hother _ c hc)
  have hnone : ∀ c p, ((LTS.Run.ofExec hs).state 5).phase c ≠ .running p := by
    intro c p h
    rcases hcases c with rfl | rfl | hc
    · cases h
    · cases h
    · rw [hother 5 c hc] at h
      cases h
  refine ⟨LTS.Run.ofExec hs, hfair, rfl, ?_⟩
  exact ((fetch_single_flight (newFetcher 50000)).2 _ hfair 5).1 hnone 1
    (fun h => by cases h) (fun h => by cases h)

end Otedama.Rates
