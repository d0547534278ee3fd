import Otedama.Rates.SingleFlight

/-! # The critical sections of a fetch

`doFetch` takes `mu` for the clock skew, for the health of the sources and
for the rate, one after the other, and `BTCUSDRate` may read in between.

As one `doFetch` runs at a time, the sections of two fetches do not mix: a
reader sees the fetches that have ended, one after the other, and at most
the skew and the health of the one that is running
(`btcUSDRate_interleaved`). -/

namespace Otedama.Rates

open Function

variable {ε : Type*}

/-! ## The source -/

/-- The first critical section, which is left out if no skew was seen. -/
def Fetcher.recordSkew (f : Fetcher) (got : Collected ε) : Fetcher :=
  if got.skewSeen then { f with clockSkewSecs := got.maxSkew } else f

/-- The second one. -/
def Fetcher.countSources (f : Fetcher) (got : Collected ε) : Fetcher :=
  { f with lastOKSources := got.rates.length, fetchAttempts := f.fetchAttempts + 1 }

/-- The rest: an error is returned, or the third critical section is entered. -/
def Fetcher.publish (f : Fetcher) (now : Int) (got : Collected ε) :
    Fetcher × Option (FetchError ε) :=
  let rates := Median.sorted got.rates
  if got.rates.length = 0 then
    (f, some (if got.fetchErrs ≠ [] then .allFailed got.fetchErrs else .noneInBand))
  else if Disagree rates then (f, some (.disagree (rates.getD 0 0) (rates.getD 1 0)))
  else ({ f with rate := Median.middle rates, fetchedAt := some now }, none)

/-- Where a call stands in `doFetch`. -/
inductive Stage (ε : Type*) where
  /-- Before the first critical section. -/
  | asking
  /-- Before the second. -/
  | skewed (arrived : List (Result ε))
  /-- Before the third. -/
  | counted (arrived : List (Result ε))

/-- The calls of `Fetch`; their `fetcher` is what readers see. -/
structure Fetching (ε : Type*) where
  flights : Flights ε
  stage : CallId → Stage ε
  /-- The fetches that have ended, in this order. -/
  ended : List (Int × List (Result ε))

def Fetching.start (f : Fetcher) : Fetching ε := ⟨noFlights f, fun _ => .asking, []⟩

inductive FetchMove (ε : Type*) where
  /-- A step outside of `doFetch`. -/
  | flight (l : FlightLabel ε)
  /-- The results of the sources are there. -/
  | recordSkew (c : CallId) (arrived : List (Result ε))
  | countSources (c : CallId)
  | publish (c : CallId) (now : Int)

def Fetching.next (s : Fetching ε) : FetchMove ε → Option (Fetching ε)
  -- Here a fetch ends with `publish`.
  | .flight (.finish _ _ _) => none
  | .flight l => (singleFlight.next s.flights l).map fun t => { s with flights := t }
  | .recordSkew c arrived =>
    match s.flights.phase c, s.stage c with
    | .running _, .asking =>
      some { s with
        flights.fetcher := s.flights.fetcher.recordSkew (collect arrived)
        stage := update s.stage c (.skewed arrived) }
    | _, _ => none
  | .countSources c =>
    match s.stage c with
    | .skewed arrived =>
      some { s with
        flights.fetcher := s.flights.fetcher.countSources (collect arrived)
        stage := update s.stage c (.counted arrived) }
    | _ => none
  | .publish c now =>
    match s.flights.phase c, s.stage c with
    | .running p, .counted arrived =>
      let out := s.flights.fetcher.publish now (collect arrived)
      some {
        flights := { s.flights.move c (.ended p out.2) with fetcher := out.1 }
        stage := update s.stage c .asking
        ended := s.ended ++ [(now, arrived)] }
    | _, _ => none

def fetchSections : LTS (Fetching ε) (FetchMove ε) where
  next := Fetching.next

/-! ## One fetch after the other -/

/-- What a fetch has written so far. -/
def Stage.seen : Stage ε → Fetcher → Fetcher
  | .asking, f => f
  | .skewed arrived, f => f.recordSkew (collect arrived)
  | .counted arrived, f => f.recordHealth (collect arrived)

theorem Fetcher.recordHealth_eq (f : Fetcher) (got : Collected ε) :
    f.recordHealth got = (f.recordSkew got).countSources got := by
  unfold recordHealth recordSkew countSources
  split <;> rfl

/-- The three sections, one after the other, are a fetch. -/
theorem doFetch_eq (f : Fetcher) (now : Int) (arrived : List (Result ε)) :
    (f.recordHealth (collect arrived)).publish now (collect arrived) =
      ((doFetch f now arrived).fetcher, (doFetch f now arrived).err) := by
  unfold doFetch Fetcher.publish
  dsimp only
  split
  · rfl
  · split <;> rfl

/-- The rate that is read does not depend on the stage. -/
theorem Stage.btcUSDRate_seen (stage : Stage ε) (f : Fetcher) (now : Int) :
    (stage.seen f).btcUSDRate now = f.btcUSDRate now := by
  cases stage with
  | asking | counted arrived => rfl
  | skewed arrived =>
    show (f.recordSkew _).btcUSDRate now = _
    unfold Fetcher.recordSkew
    split <;> rfl

/-- Only a call in `doFetch` is past its first section, and what readers see is
what the ended fetches have written and what that call has. -/
structure Fetching.Inv (f : Fetcher) (s : Fetching ε) : Prop where
  leads : s.flights.Leads
  registered : s.flights.Registered
  busy : ∀ c, s.stage c ≠ .asking → ∃ p, s.flights.phase c = .running p
  view : ∀ c, (∀ c', c' ≠ c → s.stage c' = .asking) →
    s.flights.fetcher = (s.stage c).seen (rateFeed.run f s.ended)

section

variable {f : Fetcher} {s s' : Fetching ε} {c : CallId} {p : Ref}

/-- **Single flight.** While a call is in `doFetch`, the others have written
nothing. -/
theorem Fetching.Inv.others (h : s.Inv f) (hc : s.flights.phase c = .running p) :
    ∀ c', c' ≠ c → s.stage c' = .asking := by
  intro c' hne
  by_contra hbusy
  obtain ⟨p', hc'⟩ := h.busy c' hbusy
  exact hne (h.leads.running_unique h.registered hc' hc)

omit f s s' p in
/-- What is seen of a call is all that is seen, if the others have written
nothing. -/
theorem view_update {base g : Fetcher} {stages : CallId → Stage ε} {stage : Stage ε}
    (hothers : ∀ c', c' ≠ c → stages c' = .asking) (hg : g = stage.seen base) (c' : CallId)
    (h : ∀ c'', c'' ≠ c' → update stages c stage c'' = .asking) :
    g = (update stages c stage c').seen base := by
  by_cases hne : c' = c
  · rw [hne, update_self, hg]
  · have hstage := h c (Ne.symm hne)
    rw [update_self] at hstage
    rw [update_of_ne hne, hothers c' hne, hg, hstage]

/-- A step outside of `doFetch`. -/
theorem Fetching.Inv.flight (h : s.Inv f) {l : FlightLabel ε} {t : Flights ε}
    (hl : ∀ c now arrived, l ≠ .finish c now arrived)
    (ht : singleFlight.next s.flights l = some t) : Fetching.Inv f { s with flights := t } := by
  have hstep := singleFlight_next_iff.mp ht
  obtain ⟨hfetcher, hrunning⟩ := hstep.fetcher_keep hl
  refine ⟨h.leads.step hstep, h.registered.step h.leads hstep, fun c hc => ?_, fun c hc => ?_⟩
  · obtain ⟨p, hp⟩ := h.busy c hc
    exact ⟨p, hrunning c p hp⟩
  · exact hfetcher.trans (h.view c hc)

/-- One of the first two sections. -/
theorem Fetching.Inv.write (h : s.Inv f) {stage : Stage ε} {g : Fetcher}
    (hc : s.flights.phase c = .running p) (hg : g = stage.seen (rateFeed.run f s.ended)) :
    Fetching.Inv f { s with flights.fetcher := g, stage := update s.stage c stage } := by
  refine ⟨⟨h.leads.lt, h.leads.inj, h.leads.onto⟩, h.registered, fun c' hbusy => ?_,
    view_update (h.others hc) hg⟩
  by_cases hne : c' = c
  · exact ⟨p, hne ▸ hc⟩
  · exact h.busy c' fun hasking => hbusy ((update_of_ne hne ..).trans hasking)

/-- The last section: the three have done what `doFetch` does at once. -/
theorem Fetching.Inv.publish (h : s.Inv f) {arrived : List (Result ε)}
    (hc : s.flights.phase c = .running p) (hstage : s.stage c = .counted arrived) (now : Int) :
    let out := s.flights.fetcher.publish now (collect arrived)
    Fetching.Inv f
      { flights := { s.flights.move c (.ended p out.2) with fetcher := out.1 }
        stage := update s.stage c .asking
        ended := s.ended ++ [(now, arrived)] } := by
  have hview : s.flights.fetcher = (rateFeed.run f s.ended).recordHealth (collect arrived) := by
    rw [h.view c (h.others hc), hstage]
    rfl
  dsimp only
  rw [hview, doFetch_eq]
  -- For single flight the fetch ends at once, from what the ended ones have left.
  let t : Flights ε := { s.flights with fetcher := rateFeed.run f s.ended }
  have hleads : t.Leads := ⟨h.leads.lt, h.leads.inj, h.leads.onto⟩
  have hreg : t.Registered := h.registered
  have hstep : FlightStep t (.finish c now arrived) _ := .finish hc
  refine ⟨hleads.step hstep, hreg.step hleads hstep, fun c' hbusy => ?_,
    view_update (h.others hc) ?_⟩
  · by_cases hne : c' = c
    · exact absurd (hne ▸ update_self ..) hbusy
    · exact absurd ((update_of_ne hne ..).trans (h.others hc c' hne)) hbusy
  · rw [Machine.run_append]
    rfl

theorem Fetching.Inv.next (h : s.Inv f) {move : FetchMove ε} (hnext : s.next move = some s') :
    s'.Inv f := by
  unfold Fetching.next at hnext
  split at hnext
  · cases hnext
  · next l hl =>
    obtain ⟨t, ht, rfl⟩ := Option.map_eq_some_iff.mp hnext
    exact h.flight hl ht
  · next c arrived =>
    split at hnext
    · next hphase hstage =>
      cases hnext
      refine h.write hphase ?_
      rw [h.view c (h.others hphase), hstage]
      rfl
    · cases hnext
  · next c =>
    split at hnext
    · next arrived hstage =>
      cases hnext
      obtain ⟨p, hphase⟩ := h.busy c (by rw [hstage]; nofun)
      refine h.write hphase ?_
      rw [h.view c (h.others hphase), hstage]
      exact (Fetcher.recordHealth_eq _ _).symm
    · cases hnext
  · next c now =>
    split at hnext
    · next hphase hstage =>
      cases hnext
      exact h.publish hphase hstage now
    · cases hnext

end

/-- However calls of `Fetch` interleave, and also between the critical sections
of a fetch, the rate that is read is the one that the ended fetches give,
one after the other; with no fetch half done the whole state is theirs; and
a rate that is reported as fresh is in the band. -/
theorem btcUSDRate_interleaved {fallback : ℚ} {moves : List (FetchMove ε)} {s : Fetching ε}
    (h : fetchSections.exec (.start (newFetcher fallback)) moves = some s) :
    (∀ now, s.flights.fetcher.btcUSDRate now =
      (rateFeed.run (newFetcher fallback) s.ended).btcUSDRate now) ∧
    ((∀ c, s.stage c = .asking) →
      s.flights.fetcher = rateFeed.run (newFetcher fallback) s.ended) ∧
    ∀ now rate, s.flights.fetcher.btcUSDRate now = (rate, true) →
      minPlausibleRateUSD ≤ rate ∧ rate ≤ maxPlausibleRateUSD := by
  have hinv : s.Inv (newFetcher fallback) := by
    refine fetchSections.exec_history (P := fun _ s => Fetching.Inv (newFetcher fallback) s) ?_
      (fun _ _ _ _ _ hinv hnext => hinv.next hnext) moves h
    have hinv : FlightInv (newFetcher fallback) [] (noFlights (newFetcher fallback) : Flights ε) :=
      flightInv_exec rfl
    exact ⟨hinv.leads, hinv.registered, fun c hc => absurd rfl hc, fun _ _ => rfl⟩
  have hrate : ∀ now, s.flights.fetcher.btcUSDRate now =
      (rateFeed.run (newFetcher fallback) s.ended).btcUSDRate now := by
    intro now
    by_cases hquiet : ∀ c, s.stage c = .asking
    · rw [hinv.view 0 fun c _ => hquiet c, hquiet 0]
      rfl
    · -- One call is half done, and it has not written the rate yet.
      obtain ⟨c, hc⟩ := not_forall.mp hquiet
      obtain ⟨p, hphase⟩ := hinv.busy c hc
      rw [hinv.view c (hinv.others hphase), Stage.btcUSDRate_seen]
  refine ⟨hrate, fun hquiet => ?_, fun now rate hfresh => ?_⟩
  · rw [hinv.view 0 fun c _ => hquiet c, hquiet 0]
    rfl
  · exact btcUSDRate_inBand fallback s.ended now (hrate now ▸ hfresh)

/-- A second fetch has recorded its skew and not yet its rate. -/
def halfDone : List (FetchMove String) :=
  [.flight (.call 0), .flight (.enter 0), .recordSkew 0 sampleResults, .flight (.call 1),
    .flight (.enter 1), .countSources 0, .publish 0 7, .flight (.clear 0), .flight (.call 2),
    .flight (.enter 2), .recordSkew 2 []]

theorem btcUSDRate_interleaved_sample :
    ∃ s, fetchSections.exec (.start (newFetcher 50000)) halfDone = some s ∧
      s.flights.fetcher.btcUSDRate 8 = (61000, true) ∧
      minPlausibleRateUSD ≤ 61000 ∧ 61000 ≤ maxPlausibleRateUSD := by
  have hread : (fetchSections.exec (.start (newFetcher 50000)) halfDone).map
      (·.flights.fetcher.btcUSDRate 8) = some (61000, true) := by decide +kernel
  obtain ⟨s, hexec, hrate⟩ := Option.map_eq_some_iff.mp hread
  exact ⟨s, hexec, hrate, (btcUSDRate_interleaved hexec).2.2 8 _ hrate⟩

end Otedama.Rates
