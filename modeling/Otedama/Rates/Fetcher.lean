import Otedama.Framework.Machine
import Otedama.Framework.Median

/-! # The BTC/USD rate

`doFetch` asks every price source, drops what lies outside the
plausibility band, and caches the median of the rest. Each source is
asked by a goroutine of its own, which sends one result into a buffered
channel; the loop receives as many results as there are sources. So the
loop sees one result per source, in an order that the scheduler chooses,
and the model takes the results in the order of their arrival.

What is cached depends on the results only through the sorted list of
readings in the band. From this follow that the order of arrival does
not matter and that a minority of bad sources cannot move the rate out of
the interval that the others agree on.

Prices and clock skews are exact rationals; times are nanoseconds. The
HTTP exchange and the JSON shapes of the single sources are not modelled
here: a source's result is any error or any number. -/

namespace Otedama.Rates

open Median List

/-! ## The fetcher -/

/-- `CacheDuration`: five minutes. -/
def cacheDuration : Int := 5 * 60 * 10 ^ 9

def minPlausibleRateUSD : ℚ := 100

def maxPlausibleRateUSD : ℚ := 100000000

def clockSkewWarnThreshold : ℚ := 120

/-- The fields of `Fetcher` that a fetch reads or writes. -/
structure Fetcher where
  rate : ℚ
  /-- `none` is the zero time. -/
  fetchedAt : Option Int
  clockSkewSecs : ℚ
  lastOKSources : Nat
  fetchAttempts : Nat
  fallback : ℚ
  deriving DecidableEq, Repr

/-- `NewFetcher` -/
def newFetcher (fallback : ℚ) : Fetcher where
  rate := 0
  fetchedAt := none
  clockSkewSecs := 0
  lastOKSources := 0
  fetchAttempts := 0
  fallback := fallback

/-- `BTCUSDRate`, asked at time `now`: the rate and whether it is fresh. -/
def Fetcher.btcUSDRate (f : Fetcher) (now : Int) : ℚ × Bool :=
  if f.rate ≤ 0 then (f.fallback, false)
  else (f.rate, f.fetchedAt.any fun t => now - t < cacheDuration)

/-- What the goroutine of one source sends; `ε` are the errors of sources. -/
structure Result (ε : Type*) where
  rate : ℚ
  skewSecs : ℚ
  err : Option ε
  deriving DecidableEq, Repr

inductive FetchError (ε : Type*) where
  /-- `rates: all sources failed: %w`, with the joined errors -/
  | allFailed (joined : List ε)
  /-- `rates: all sources failed (all readings implausible)` -/
  | noneInBand
  /-- `rates: sources disagree %.0f vs %.0f — distrusting feed` -/
  | disagree (low high : ℚ)
  deriving DecidableEq, Repr

inductive LogLine where
  /-- `rates: ignoring implausible reading %.2f (outside [%.0f, %.0f])` -/
  | ignoring (rate : ℚ)
  /-- `rates: WARNING: local clock is %.0f s off server time (threshold %.0f s); …` -/
  | clockSkew (skewSecs : ℚ)
  deriving DecidableEq, Repr

/-! ## Collecting the results -/

/-- The variables of the receiving loop. -/
structure Collected (ε : Type*) where
  rates : List ℚ := []
  maxSkew : ℚ := 0
  skewSeen : Bool := false
  fetchErrs : List ε := []
  logs : List LogLine := []
  deriving DecidableEq, Repr

variable {ε : Type*}

/-- The first part of the loop body: the skew counts whether or not the
source has a rate. -/
def Collected.seeSkew (acc : Collected ε) (skewSecs : ℚ) : Collected ε :=
  if 0 < skewSecs then { acc with skewSeen := true, maxSkew := max acc.maxSkew skewSecs } else acc

/-- One turn of the receiving loop. -/
def Collected.receive (acc : Collected ε) (r : Result ε) : Collected ε :=
  let acc := acc.seeSkew r.skewSecs
  match r.err with
  | some err => { acc with fetchErrs := acc.fetchErrs ++ [err] }
  | none =>
    if ¬ (minPlausibleRateUSD ≤ r.rate ∧ r.rate ≤ maxPlausibleRateUSD) then
      -- A plain zero is a source without a value and stays quiet.
      if r.rate ≠ 0 then { acc with logs := acc.logs ++ [.ignoring r.rate] } else acc
    else { acc with rates := acc.rates ++ [r.rate] }

/-- The receiving loop. -/
def collect (arrived : List (Result ε)) : Collected ε := arrived.foldl Collected.receive {}

/-- The reading of a result, if there is one in the band. -/
def Result.reading (r : Result ε) : Option ℚ :=
  if r.err.isNone ∧ minPlausibleRateUSD ≤ r.rate ∧ r.rate ≤ maxPlausibleRateUSD then some r.rate
  else none

/-- The readings in the band. -/
def readings (results : List (Result ε)) : List ℚ := results.filterMap Result.reading

@[simp] theorem Collected.rates_seeSkew (acc : Collected ε) (skewSecs : ℚ) :
    (acc.seeSkew skewSecs).rates = acc.rates := by
  unfold seeSkew
  split
  · rfl
  · rfl

theorem Collected.rates_receive (acc : Collected ε) (r : Result ε) :
    (acc.receive r).rates = acc.rates ++ r.reading.toList := by
  unfold receive Result.reading
  cases herr : r.err with
  | some err => simp
  | none =>
    by_cases hband : minPlausibleRateUSD ≤ r.rate ∧ r.rate ≤ maxPlausibleRateUSD
    · simp [hband]
    · -- A dropped reading leaves the list alone, logged or not.
      have hnone : ¬ ((none : Option ε).isNone = true ∧ minPlausibleRateUSD ≤ r.rate ∧
          r.rate ≤ maxPlausibleRateUSD) := fun h => hband h.2
      dsimp only
      rw [if_pos hband, if_neg hnone]
      split
      · simp
      · simp

theorem Collected.rates_foldl (acc : Collected ε) (arrived : List (Result ε)) :
    (arrived.foldl Collected.receive acc).rates = acc.rates ++ readings arrived := by
  induction arrived generalizing acc with
  | nil => simp [readings]
  | cons r rest ih =>
    rw [foldl_cons, ih, rates_receive, append_assoc]
    cases hr : r.reading <;> simp [readings, hr]

/-- The loop keeps the readings in the band, in the order of arrival. -/
theorem rates_collect (arrived : List (Result ε)) : (collect arrived).rates = readings arrived :=
  Collected.rates_foldl {} arrived

theorem readings_perm {arrived results : List (Result ε)} (h : arrived.Perm results) :
    (readings arrived).Perm (readings results) := h.filterMap _

theorem mem_readings {results : List (Result ε)} {q : ℚ} (h : q ∈ readings results) :
    minPlausibleRateUSD ≤ q ∧ q ≤ maxPlausibleRateUSD := by
  obtain ⟨r, -, hr⟩ := mem_filterMap.mp h
  unfold Result.reading at hr
  split at hr
  · next hband =>
    obtain rfl : r.rate = q := by simpa using hr
    exact hband.2
  · cases hr

/-! ## One fetch -/

/-- What a fetch leaves behind: the fetcher, the lines it logged, and the
error it returns, if any. -/
structure FetchOutcome (ε : Type*) where
  fetcher : Fetcher
  logs : List LogLine
  err : Option (FetchError ε)
  deriving DecidableEq, Repr

/-- The clock skew and the health of the sources are recorded whatever
becomes of the rate. -/
def Fetcher.recordHealth (f : Fetcher) (got : Collected ε) : Fetcher :=
  { f with
    clockSkewSecs := if got.skewSeen then got.maxSkew else f.clockSkewSecs
    lastOKSources := got.rates.length
    fetchAttempts := f.fetchAttempts + 1 }

/-- The lines a fetch logs: the implausible readings as they arrive, then a
warning if the clock is off. -/
def Collected.allLogs (got : Collected ε) : List LogLine :=
  if got.skewSeen ∧ clockSkewWarnThreshold < got.maxSkew then got.logs ++ [.clockSkew got.maxSkew]
  else got.logs

/-- Two sorted readings that no honest pair of sources shows. -/
def Disagree (rates : List ℚ) : Prop := rates.length = 2 ∧ rates.getD 1 0 > rates.getD 0 0 * 4

instance (rates : List ℚ) : Decidable (Disagree rates) :=
  inferInstanceAs (Decidable (rates.length = 2 ∧ rates.getD 1 0 > rates.getD 0 0 * 4))

/-- `doFetch`, whose results arrive in the order `arrived` and which ends at
time `now`. -/
def doFetch (f : Fetcher) (now : Int) (arrived : List (Result ε)) : FetchOutcome ε :=
  let got := collect arrived
  -- Skew and health are kept also if there is no rate in the end.
  let f := f.recordHealth got
  let rates := sorted got.rates
  if got.rates.length = 0 then
    { fetcher := f, logs := got.allLogs
      err := some (if got.fetchErrs ≠ [] then .allFailed got.fetchErrs else .noneInBand) }
  else if Disagree rates then
    { fetcher := f, logs := got.allLogs
      err := some (.disagree (rates.getD 0 0) (rates.getD 1 0)) }
  else
    { fetcher := { f with rate := middle rates, fetchedAt := some now }
      logs := got.allLogs, err := none }

/-- The readings from which a rate can be published. -/
def Usable (rates : List ℚ) : Prop := rates ≠ [] ∧ ¬ Disagree (sorted rates)

/-- **What a fetch does.** With usable readings it caches their median and
the time; otherwise it returns an error and leaves both alone. -/
theorem doFetch_cases (f : Fetcher) (now : Int) (arrived : List (Result ε)) :
    (Usable (readings arrived) ∧ (doFetch f now arrived).err = none ∧
      (doFetch f now arrived).fetcher.rate = middle (sorted (readings arrived)) ∧
      (doFetch f now arrived).fetcher.fetchedAt = some now) ∨
    (¬ Usable (readings arrived) ∧ (doFetch f now arrived).err ≠ none ∧
      (doFetch f now arrived).fetcher.rate = f.rate ∧
      (doFetch f now arrived).fetcher.fetchedAt = f.fetchedAt) := by
  unfold doFetch Usable
  simp only [rates_collect]
  by_cases hnil : readings arrived = []
  · right
    simp [hnil, Fetcher.recordHealth]
  · by_cases hdis : Disagree (sorted (readings arrived))
    · right
      simp [hnil, hdis, Fetcher.recordHealth]
    · left
      simp [hnil, hdis, Fetcher.recordHealth]

theorem usable_congr {rates rates' : List ℚ} (h : rates.Perm rates') :
    Usable rates ↔ Usable rates' := by
  unfold Usable
  rw [sorted_congr h, ← length_pos_iff, ← length_pos_iff, h.length_eq]

/-- The order in which the results arrive changes neither whether the fetch
succeeds nor the rate that is cached. -/
theorem doFetch_order {f : Fetcher} {now now' : Int} {arrived arrived' : List (Result ε)}
    (h : arrived.Perm arrived') :
    ((doFetch f now arrived).err = none ↔ (doFetch f now' arrived').err = none) ∧
      (doFetch f now arrived).fetcher.rate = (doFetch f now' arrived').fetcher.rate := by
  have hreadings := readings_perm h
  rcases doFetch_cases f now arrived with ⟨hu, hok, hrate, -⟩ | ⟨hu, hbad, hrate, -⟩
  · rcases doFetch_cases f now' arrived' with ⟨-, hok', hrate', -⟩ | ⟨hu', -⟩
    · exact ⟨iff_of_true hok hok', by rw [hrate, hrate', sorted_congr hreadings]⟩
    · exact absurd ((usable_congr hreadings).mp hu) hu'
  · rcases doFetch_cases f now' arrived' with ⟨hu', -⟩ | ⟨-, hbad', hrate', -⟩
    · exact absurd ((usable_congr hreadings).mpr hu') hu
    · exact ⟨iff_of_false hbad hbad', by rw [hrate, hrate']⟩

/-! ## The rate resists a minority -/

/-- The median of usable readings lies in the band. -/
theorem middle_readings_inBand {results : List (Result ε)} (hne : readings results ≠ []) :
    minPlausibleRateUSD ≤ middle (sorted (readings results)) ∧
      middle (sorted (readings results)) ≤ maxPlausibleRateUSD := by
  refine middle_mem_of_forall (sorted_pairwise _) ?_ ?_
  · rwa [← length_pos_iff, length_sorted, length_pos_iff]
  · intro q hq
    exact mem_readings ((sorted_perm _).subset hq)

/-- The median stays in an interval that fewer than half of the readings
leave. -/
theorem middle_sorted_mem {rates : List ℚ} {lo hi : ℚ}
    (h : 2 * rates.countP (fun q => q < lo ∨ hi < q) < rates.length) :
    lo ≤ middle (sorted rates) ∧ middle (sorted rates) ≤ hi := by
  refine middle_mem (sorted_pairwise rates) ?_
  rwa [(sorted_perm rates).countP_eq, length_sorted]

theorem sorted_pair {rates : List ℚ} {small large : ℚ} (h : rates.Perm [small, large])
    (hle : small ≤ large) : sorted rates = [small, large] := by
  have hpair : [small, large].Pairwise (· ≤ ·) := by simp [hle]
  exact ((sorted_perm rates).trans h).eq_of_pairwise (fun a b _ _ => le_antisymm)
    (sorted_pairwise rates) hpair

/-- Two usable readings are within a factor of four, so their mean is within
a factor of 2.5 of the smaller and of 0.625 of the larger. -/
theorem middle_pair {rates : List ℚ} {small large : ℚ} (hu : Usable rates)
    (h : rates.Perm [small, large]) (hle : small ≤ large) :
    middle (sorted rates) ≤ 5 / 2 * small ∧ 5 / 8 * large ≤ middle (sorted rates) := by
  obtain ⟨-, hdis⟩ := hu
  rw [sorted_pair h hle] at hdis ⊢
  have hfour : large ≤ small * 4 := by simpa [Disagree] using hdis
  have hmid : middle [small, large] = (small + large) / 2 := by simp [middle]
  rw [hmid]
  constructor
  · linarith
  · linarith

/-- Each source contributes one result, and the results arrive in any order.
Neither success nor the cached rate depends on that order. A successful
fetch caches a rate in the band; with at least three readings in the band
the rate stays in every interval that fewer than half of them leave, and
with two it is within a factor of both. A failed fetch leaves the rate
and its time alone. -/
theorem doFetch_resists_minority (f : Fetcher) (results : List (Result ε)) :
    (∀ arrived arrived' now now', arrived.Perm results → arrived'.Perm results →
      ((doFetch f now arrived).err = none ↔ (doFetch f now' arrived').err = none) ∧
      (doFetch f now arrived).fetcher.rate = (doFetch f now' arrived').fetcher.rate) ∧
    ∀ arrived now, arrived.Perm results →
      ((doFetch f now arrived).err = none →
        (minPlausibleRateUSD ≤ (doFetch f now arrived).fetcher.rate ∧
          (doFetch f now arrived).fetcher.rate ≤ maxPlausibleRateUSD) ∧
        (∀ lo hi, 3 ≤ (readings results).length →
          2 * (readings results).countP (fun q => q < lo ∨ hi < q) < (readings results).length →
          lo ≤ (doFetch f now arrived).fetcher.rate ∧
            (doFetch f now arrived).fetcher.rate ≤ hi) ∧
        (∀ small large, (readings results).Perm [small, large] → small ≤ large →
          (doFetch f now arrived).fetcher.rate ≤ 5 / 2 * small ∧
            5 / 8 * large ≤ (doFetch f now arrived).fetcher.rate)) ∧
      ((doFetch f now arrived).err ≠ none →
        (doFetch f now arrived).fetcher.rate = f.rate ∧
          (doFetch f now arrived).fetcher.fetchedAt = f.fetchedAt) := by
  constructor
  · intro arrived arrived' now now' h h'
    exact doFetch_order (h.trans h'.symm)
  · intro arrived now h
    have hreadings := readings_perm h
    rcases doFetch_cases f now arrived with ⟨hu, hok, hrate, -⟩ | ⟨-, hbad, hrate, htime⟩
    · have hu' := (usable_congr hreadings).mp hu
      rw [hrate, sorted_congr hreadings]
      refine ⟨fun _ => ⟨middle_readings_inBand hu'.1, ?_, ?_⟩, fun hbad => absurd hok hbad⟩
      · intro lo hi _ hminority
        exact middle_sorted_mem hminority
      · intro small large hpair hle
        exact middle_pair hu' hpair hle
    · exact ⟨fun hok => absurd hok hbad, fun _ => ⟨hrate, htime⟩⟩

/-- Three sources, the last of which is off by three orders of magnitude. -/
def sampleResults : List (Result String) :=
  [{ rate := 61000, skewSecs := 0, err := none }, { rate := 60000, skewSecs := 1, err := none },
    { rate := 60500000, skewSecs := 0, err := none }]

theorem doFetch_resists_outlier :
    (doFetch (newFetcher 50000) 7 sampleResults).err = none ∧
      60000 ≤ (doFetch (newFetcher 50000) 7 sampleResults).fetcher.rate ∧
      (doFetch (newFetcher 50000) 7 sampleResults).fetcher.rate ≤ 61000 := by
  have hok : (doFetch (newFetcher 50000) 7 sampleResults).err = none := by decide +kernel
  have hall := (doFetch_resists_minority (newFetcher 50000) sampleResults).2 sampleResults 7
    (List.Perm.refl _)
  exact ⟨hok, (hall.1 hok).2.1 60000 61000 (by decide +kernel) (by decide +kernel)⟩

/-! ## Runs of fetches -/

/-- The fetcher as a loop that reads the time and the results of one fetch
after the other. -/
def rateFeed : Machine Fetcher (Int × List (Result ε)) (FetchError ε) where
  step f fetch :=
    ((doFetch f fetch.1 fetch.2).fetcher, (doFetch f fetch.1 fetch.2).err.toList)

/-- The cached rate is none, or plausible. -/
def Fetcher.Sane (f : Fetcher) : Prop :=
  f.rate = 0 ∨ minPlausibleRateUSD ≤ f.rate ∧ f.rate ≤ maxPlausibleRateUSD

theorem doFetch_sane {f : Fetcher} (hf : f.Sane) (now : Int) (arrived : List (Result ε)) :
    (doFetch f now arrived).fetcher.Sane := by
  unfold Fetcher.Sane at hf ⊢
  rcases doFetch_cases f now arrived with ⟨hu, -, hrate, -⟩ | ⟨-, -, hrate, -⟩
  · rw [hrate]
    exact .inr (middle_readings_inBand hu.1)
  · rwa [hrate]

/-- After any run of fetches a rate that is reported as fresh is plausible. -/
theorem btcUSDRate_inBand (fallback : ℚ) (fetches : List (Int × List (Result ε))) (now : Int)
    {rate : ℚ} (h : (rateFeed.run (newFetcher fallback) fetches).btcUSDRate now = (rate, true)) :
    minPlausibleRateUSD ≤ rate ∧ rate ≤ maxPlausibleRateUSD := by
  have hsane : (rateFeed.run (newFetcher fallback) fetches).Sane := by
    refine rateFeed.run_invariant (Q := fun _ => True) (.inl rfl) ?_ fetches fun _ _ => trivial
    intro f fetch _ hf
    exact doFetch_sane hf fetch.1 fetch.2
  unfold Fetcher.btcUSDRate at h
  split at h
  · cases h
  · next hpos =>
    obtain ⟨rfl, -⟩ := Prod.mk.inj h
    rcases hsane with hzero | hband
    · exact absurd hzero.le hpos
    · exact hband

end Otedama.Rates
