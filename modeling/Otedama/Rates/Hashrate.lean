import Otedama.Framework.GoFloat
import Otedama.Framework.Machine
import Otedama.Framework.Reader

/-! # The network hashrate

`HashrateFetcher` asks two endpoints for the hashrate of the network and
caches the median of the readings inside a plausibility band. The mining
provider divides by what it reads here.

One of the endpoints answers in plain text, which is parsed as a float.
The band check drops a reading that is too small *or* too large; one that
is not a number is neither, passes, survives the comparison of the two
sources and makes the median what it is. `CurrentHashrate` hides values
that are zero or less, and again `nan` is not.

A fetch is modelled from the HTTP replies on: the status, the limit on
the body, parsing, the band, the logs, the comparison and the median.
Decoding JSON and reading the digits of a number are parameters. -/

namespace Otedama.Rates

open GoFloat GoString Median List

/-! ## Sources -/

/-- The decoders the sources rest on. -/
structure Decoding where
  /-- `json.Unmarshal` into the field `currentHashrate`, which stays zero if
      it is missing; JSON has no special floats. -/
  unmarshal : GoString → Option ℚ
  /-- `strconv.ParseFloat` on the texts of finite numbers. -/
  number : GoString → Except ParseError ℚ

/-- Why a source has no reading. -/
inductive HashrateSourceError where
  /-- The request could not be made or got no reply. -/
  | request
  /-- `HTTP %d` -/
  | status (code : Nat)
  /-- The body could not be read. -/
  | body
  /-- The body is not JSON of the expected shape. -/
  | json
  /-- `currentHashrate %v not positive` -/
  | notPositive (v : ℚ)
  /-- The body is not a number. -/
  | parse (err : ParseError)
  /-- `hashrate %e H/s outside plausibility band` -/
  | outsideBand (v : GoFloat)
  deriving DecidableEq, Repr

structure HashrateSource where
  name : GoString
  extract : GoString → Except HashrateSourceError GoFloat

def maxHashrateBody : Nat := 64 * 2 ^ 10

def minPlausibleHashrate : ℚ := 10 ^ 18

def maxPlausibleHashrate : ℚ := 10 ^ 23

/-- `HashrateCacheDuration`: thirty minutes. -/
def hashrateCacheDuration : Int := 30 * 60 * 10 ^ 9

/-- `mempool.space` answers in JSON, in H/s. -/
def mempoolSpace (d : Decoding) : HashrateSource where
  name := text "mempool.space".toList
  extract b :=
    match d.unmarshal b with
    | none => .error .json
    | some v => if v ≤ 0 then .error (.notPositive v) else .ok (fin v)

/-- `blockchain.info` answers in plain text, in GH/s. -/
def blockchainInfo (d : Decoding) : HashrateSource where
  name := text "blockchain.info".toList
  extract b :=
    match parseFloat d.number b with
    | .error err => .error (.parse err)
    | .ok ghs => .ok (ghs * fin (10 ^ 9))

def defaultHashrateSources (d : Decoding) : List HashrateSource :=
  [mempoolSpace d, blockchainInfo d]

/-! ## One source -/

/-- What comes back from an endpoint: nothing, or a status and a body that
ends properly or breaks off. -/
inductive Reply where
  | failed
  | response (status : Nat) (stream : GoString) (broken : Bool)
  deriving DecidableEq, Repr

/-- `io.ReadAll` behind a limit: what comes after the limit is not read, so
it cannot fail either. -/
def readBody (stream : GoString) (broken : Bool) : Except HashrateSourceError GoString :=
  if broken ∧ stream.length < maxHashrateBody then .error .body
  else .ok (stream.take maxHashrateBody)

def fetchOne (src : HashrateSource) : Reply → Except HashrateSourceError GoFloat
  | .failed => .error .request
  | .response status stream broken =>
    if status ≠ 200 then .error (.status status)
    else do
      let body ← readBody stream broken
      let v ← src.extract body
      -- Neither comparison is true of `nan`.
      if v < fin minPlausibleHashrate ∨ v > fin maxPlausibleHashrate then .error (.outsideBand v)
      else .ok v

/-! ## The fetcher -/

structure HashrateFetcher where
  sources : List HashrateSource
  hashrate : GoFloat
  /-- `none` is the zero time. -/
  fetchedAt : Option Int

/-- `NewHashrateFetcher` -/
def newHashrateFetcher (d : Decoding) : HashrateFetcher where
  sources := defaultHashrateSources d
  hashrate := 0
  fetchedAt := none

/-- `CurrentHashrate`, asked at time `now`: the value and whether it is
fresh. -/
def HashrateFetcher.currentHashrate (f : HashrateFetcher) (now : Int) : GoFloat × Bool :=
  if f.hashrate ≤ 0 then (0, false)
  else (f.hashrate, f.fetchedAt.any fun t => now - t < hashrateCacheDuration)

/-- A call of `Fetch`: what each goroutine gets back, in which order the
goroutines end, and when the call ends. -/
structure HashrateFetch where
  replies : Nat → Reply
  order : List Nat
  now : Int

inductive HashrateFetchError where
  /-- `rates: all %d hashrate sources failed` -/
  | allFailed (sources : Nat)
  /-- `rates: hashrate sources disagree %e vs %e — distrusting feed` -/
  | disagree (low high : GoFloat)
  deriving DecidableEq, Repr

/-- `rates: hashrate source %s: %v` -/
structure HashrateLogLine where
  name : GoString
  err : HashrateSourceError
  deriving DecidableEq, Repr

/-- What becomes of the goroutines, in the order in which they end. -/
def HashrateFetch.results (call : HashrateFetch) (sources : List HashrateSource) :
    List (GoString × Except HashrateSourceError GoFloat) :=
  call.order.filterMap fun i => sources[i]?.map fun src => (src.name, fetchOne src (call.replies i))

/-- What the channel holds once all goroutines have ended. -/
def HashrateFetch.vals (call : HashrateFetch) (sources : List HashrateSource) : List GoFloat :=
  (call.results sources).filterMap fun r => r.2.toOption

/-- The lines the goroutines log. -/
def HashrateFetch.logs (call : HashrateFetch) (sources : List HashrateSource) :
    List HashrateLogLine :=
  (call.results sources).filterMap fun r =>
    match r.2 with
    | .ok _ => none
    | .error err => some { name := r.1, err := err }

/-- What a fetch leaves behind: the fetcher, the lines it logged, and the
error it returns, if any. -/
structure HashrateOutcome where
  fetcher : HashrateFetcher
  logs : List HashrateLogLine
  err : Option HashrateFetchError

def HashrateFetcher.fetch (f : HashrateFetcher) (call : HashrateFetch) : HashrateOutcome :=
  let vals := GoFloat.sort (call.vals f.sources)
  let n := vals.length
  if n = 0 then
    { fetcher := f, logs := call.logs f.sources, err := some (.allFailed f.sources.length) }
  -- Of two readings the median is the mean, which rejects no outlier.
  else if n = 2 ∧ vals.getD 1 0 > vals.getD 0 0 * 4 then
    { fetcher := f, logs := call.logs f.sources
      err := some (.disagree (vals.getD 0 0) (vals.getD 1 0)) }
  else
    { fetcher := { f with hashrate := middle vals, fetchedAt := some call.now }
      logs := call.logs f.sources, err := none }

/-- The fetcher as a loop that reads one call of `Fetch` after the other. -/
def hashrateFeed : Machine HashrateFetcher HashrateFetch HashrateFetchError where
  step f call := ((f.fetch call).fetcher, (f.fetch call).err.toList)

/-! ## What passes the checks -/

/-- A rational inside the band. -/
def InBand (v : GoFloat) : Prop :=
  ∃ q, v = fin q ∧ minPlausibleHashrate ≤ q ∧ q ≤ maxPlausibleHashrate

theorem not_inBand_nan : ¬ InBand nan := by
  rintro ⟨q, hq, -⟩
  cases hq

/-- The band check lets plausible values pass, and `nan`. -/
theorem within_band_iff (v : GoFloat) :
    ¬ (v < fin minPlausibleHashrate ∨ v > fin maxPlausibleHashrate) ↔ InBand v ∨ v = nan := by
  unfold InBand
  cases v with
  | nan => simp [gt_iff_lt]
  | posInf =>
    have hhigh : posInf > fin maxPlausibleHashrate := fin_lt_posInf _
    simp [hhigh]
  | negInf =>
    have hlow : negInf < fin minPlausibleHashrate := negInf_lt_fin _
    simp [hlow]
  | fin q => simp [gt_iff_lt, not_or]

/-- The reading of a source: the reply is complete, the body parses, and the
value passes the check. -/
theorem fetchOne_eq_ok {src : HashrateSource} {reply : Reply} {v : GoFloat} :
    fetchOne src reply = .ok v ↔ ∃ stream broken body, reply = .response 200 stream broken ∧
        readBody stream broken = .ok body ∧ src.extract body = .ok v ∧ (InBand v ∨ v = nan) := by
  rw [← within_band_iff]
  cases reply with
  | failed => simp [fetchOne]
  | response status stream broken =>
    unfold fetchOne
    by_cases hstatus : status = 200
    · subst hstatus
      dsimp only
      rw [if_neg (by simp)]
      simp only [Reader.bind_eq_ok]
      constructor
      · rintro ⟨body, hbody, w, hext, hpass⟩
        split at hpass
        · cases hpass
        · next hin =>
          obtain rfl : w = v := by simpa using hpass
          exact ⟨stream, broken, body, rfl, hbody, hext, hin⟩
      · rintro ⟨_, _, body, hreply, hbody, hext, hin⟩
        cases hreply
        exact ⟨body, hbody, v, hext, if_neg hin⟩
    · simp [hstatus]

/-- The JSON source never reads `nan`. -/
theorem extract_mempoolSpace (d : Decoding) (b : GoString) :
    (mempoolSpace d).extract b ≠ .ok nan := by
  dsimp only [mempoolSpace]
  cases d.unmarshal b with
  | none => simp
  | some v =>
    dsimp only
    split
    · simp
    · simp

/-- The plain-text source reads `nan` where the text says so. -/
theorem extract_blockchainInfo (d : Decoding) (b : GoString) :
    (blockchainInfo d).extract b = .ok nan ↔ SpellsNaN b := by
  rw [← parseFloat_eq_nan d.number]
  dsimp only [blockchainInfo]
  cases parseFloat d.number b with
  | error err => simp
  | ok ghs => simp [mul_fin_eq_nan]

/-- The second source answers with the text `nan`. -/
def AnswersNaN (call : HashrateFetch) : Prop :=
  ∃ stream broken body, call.replies 1 = .response 200 stream broken ∧
    readBody stream broken = .ok body ∧ SpellsNaN body

theorem fetchOne_blockchainInfo_nan (d : Decoding) (call : HashrateFetch) :
    fetchOne (blockchainInfo d) (call.replies 1) = .ok nan ↔ AnswersNaN call := by
  simp only [fetchOne_eq_ok, extract_blockchainInfo, AnswersNaN, or_true, and_true]

theorem fetchOne_mempoolSpace_ne_nan (d : Decoding) (reply : Reply) :
    fetchOne (mempoolSpace d) reply ≠ .ok nan := by
  intro h
  obtain ⟨_, _, body, -, -, hext, -⟩ := fetchOne_eq_ok.mp h
  exact extract_mempoolSpace d body hext

/-! ## One fetch -/

/-- Every goroutine of the call ends once. -/
def HashrateFetch.Complete (call : HashrateFetch) (sources : List HashrateSource) : Prop :=
  call.order.Perm (List.range sources.length)

section

variable {call : HashrateFetch} {sources : List HashrateSource} {v : GoFloat}

theorem mem_vals : v ∈ call.vals sources ↔
      ∃ i ∈ call.order, ∃ src, sources[i]? = some src ∧ fetchOne src (call.replies i) = .ok v := by
  unfold HashrateFetch.vals HashrateFetch.results
  simp only [mem_filterMap, Option.map_eq_some_iff]
  constructor
  · rintro ⟨_, ⟨i, hi, src, hsrc, rfl⟩, hv⟩
    refine ⟨i, hi, src, hsrc, ?_⟩
    cases hone : fetchOne src (call.replies i) with
    | error err => simp [hone, Except.toOption] at hv
    | ok w => simpa [hone, Except.toOption] using hv
  · rintro ⟨i, hi, src, hsrc, hv⟩
    exact ⟨_, ⟨i, hi, src, hsrc, rfl⟩, by simp [hv, Except.toOption]⟩

/-- Whatever the sources are, a reading is in the band or not a number. -/
theorem inBand_or_nan_of_mem_vals (h : v ∈ call.vals sources) : InBand v ∨ v = nan := by
  obtain ⟨i, -, src, -, hone⟩ := mem_vals.mp h
  obtain ⟨_, _, _, -, -, -, hin⟩ := fetchOne_eq_ok.mp hone
  exact hin

end

theorem length_vals_le (call : HashrateFetch) (sources : List HashrateSource) :
    (call.vals sources).length ≤ call.order.length :=
  (length_filterMap_le _ _).trans (length_filterMap_le _ _)

/-- **What a fetch does.** It publishes the median of the readings, or it
leaves the fetcher alone because there are none or two that disagree. -/
theorem fetch_cases (f : HashrateFetcher) (call : HashrateFetch) :
    (call.vals f.sources ≠ [] ∧ (f.fetch call).fetcher =
      { f with hashrate := middle (GoFloat.sort (call.vals f.sources))
               fetchedAt := some call.now }) ∨
    ((f.fetch call).fetcher = f ∧ (call.vals f.sources = [] ∨
      ∃ low high, GoFloat.sort (call.vals f.sources) = [low, high] ∧ high > low * 4)) := by
  have hperm := GoFloat.sort_perm (call.vals f.sources)
  unfold HashrateFetcher.fetch
  dsimp only
  split
  · next hzero =>
    rw [hperm.length_eq, length_eq_zero_iff] at hzero
    exact .inr ⟨rfl, .inl hzero⟩
  · next hpos =>
    split
    · next hdis =>
      obtain ⟨low, high, hpair⟩ := length_eq_two.mp hdis.1
      refine .inr ⟨rfl, .inr ⟨low, high, hpair, ?_⟩⟩
      simpa [hpair] using hdis.2
    · refine .inl ⟨?_, rfl⟩
      rwa [Ne, ← length_eq_zero_iff, ← hperm.length_eq]

@[simp] theorem sources_fetch (f : HashrateFetcher) (call : HashrateFetch) :
    (f.fetch call).fetcher.sources = f.sources := by
  rcases fetch_cases f call with ⟨-, heq⟩ | ⟨heq, -⟩
  · rw [heq]
  · rw [heq]

section

variable {d : Decoding} {f : HashrateFetcher} {call : HashrateFetch}

section

variable (hsrc : f.sources = defaultHashrateSources d) (hcall : call.Complete f.sources)

include hsrc hcall

theorem nan_mem_vals_iff : nan ∈ call.vals f.sources ↔ AnswersNaN call := by
  rw [mem_vals, ← fetchOne_blockchainInfo_nan d call]
  have horder : ∀ i, i ∈ call.order ↔ i < 2 := by
    intro i
    rw [hcall.mem_iff, hsrc, mem_range]
    rfl
  constructor
  · rintro ⟨i, hi, src, hsome, hone⟩
    rw [hsrc] at hsome
    have hlt := (horder i).mp hi
    interval_cases i
    · obtain rfl : mempoolSpace d = src := by simpa [defaultHashrateSources] using hsome
      exact absurd hone (fetchOne_mempoolSpace_ne_nan d _)
    · obtain rfl : blockchainInfo d = src := by simpa [defaultHashrateSources] using hsome
      exact hone
  · intro hone
    exact ⟨1, (horder 1).mpr (by decide), blockchainInfo d, by rw [hsrc]; rfl, hone⟩

/-- The text `nan` is published. -/
theorem fetch_of_answersNaN (h : AnswersNaN call) :
    (f.fetch call).fetcher.hashrate = nan ∧ (f.fetch call).fetcher.fetchedAt = some call.now := by
  have hperm := GoFloat.sort_perm (call.vals f.sources)
  have hmem : nan ∈ call.vals f.sources := (nan_mem_vals_iff hsrc hcall).mpr h
  have hmem' : nan ∈ GoFloat.sort (call.vals f.sources) := hperm.mem_iff.mpr hmem
  rcases fetch_cases f call with ⟨-, heq⟩ | ⟨-, hnil | ⟨low, high, hpair, hdis⟩⟩
  · rw [heq]
    refine ⟨middle_eq_nan ?_ hmem', rfl⟩
    calc (GoFloat.sort (call.vals f.sources)).length
        = (call.vals f.sources).length := hperm.length_eq
      _ ≤ call.order.length := length_vals_le call f.sources
      _ = 2 := by rw [hcall.length_eq, length_range, hsrc]; rfl
  · simp [hnil] at hmem
  · -- Two sources, one of them `nan`, never disagree.
    rw [hpair] at hmem'
    simp only [mem_cons, not_mem_nil, or_false] at hmem'
    rcases hmem' with rfl | rfl
    · simp [gt_iff_lt] at hdis
    · simp [gt_iff_lt] at hdis

/-- Without it, what is published is in the band. -/
theorem fetch_of_not_answersNaN (h : ¬ AnswersNaN call) :
    (f.fetch call).fetcher = f ∨ InBand (f.fetch call).fetcher.hashrate := by
  rcases fetch_cases f call with ⟨hne, heq⟩ | ⟨heq, -⟩
  · right
    have hperm := GoFloat.sort_perm (call.vals f.sources)
    rw [heq]
    refine middle_eq_fin ?_ ?_
    · rwa [Ne, ← length_eq_zero_iff, hperm.length_eq, length_eq_zero_iff]
    · intro v hv
      have hv' : v ∈ call.vals f.sources := hperm.mem_iff.mp hv
      rcases inBand_or_nan_of_mem_vals hv' with hin | rfl
      · exact hin
      · exact absurd ((nan_mem_vals_iff hsrc hcall).mp hv') h
  · exact .inl heq

end

end

/-! ## What is published -/

/-- Whenever the fetcher reports a fresh value, the value is in the band. -/
def HashrateFetcher.Trustworthy (f : HashrateFetcher) : Prop :=
  ∀ now v, f.currentHashrate now = (v, true) → InBand v

theorem HashrateFetcher.trustworthy_of_inBand {f : HashrateFetcher} (h : InBand f.hashrate) :
    f.Trustworthy := by
  intro now v hv
  unfold currentHashrate at hv
  split at hv
  · cases hv
  · obtain ⟨rfl, -⟩ := Prod.mk.inj hv
    exact h

theorem HashrateFetcher.not_trustworthy_of_nan {f : HashrateFetcher} {now : Int}
    (h : f.hashrate = nan) (hat : f.fetchedAt = some now) : ¬ f.Trustworthy := by
  intro htrust
  -- Asked at once, `nan` is fresh.
  have hread : f.currentHashrate now = (nan, true) := by
    simp [currentHashrate, h, hat, hashrateCacheDuration]
  exact not_inBand_nan (htrust now nan hread)

theorem trustworthy_fetch_iff {d : Decoding} {f : HashrateFetcher} {call : HashrateFetch}
    (hsrc : f.sources = defaultHashrateSources d) (hcall : call.Complete f.sources)
    (hf : f.Trustworthy) : (f.fetch call).fetcher.Trustworthy ↔ ¬ AnswersNaN call := by
  constructor
  · intro htrust hnan
    obtain ⟨hval, hat⟩ := fetch_of_answersNaN hsrc hcall hnan
    exact HashrateFetcher.not_trustworthy_of_nan hval hat htrust
  · intro hnan
    rcases fetch_of_not_answersNaN hsrc hcall hnan with heq | hin
    · rwa [heq]
    · exact HashrateFetcher.trustworthy_of_inBand hin

/-- Over every sequence of calls, all values reported as fresh are in the
band exactly when the plain-text source never answers with the text
`nan`. -/
theorem hashrateFeed_inBand_iff (d : Decoding) (calls : List HashrateFetch)
    (hcalls : ∀ call ∈ calls, call.Complete (defaultHashrateSources d)) :
    (∀ pre, pre <+: calls → ∀ now v,
      (hashrateFeed.run (newHashrateFetcher d) pre).currentHashrate now = (v, true) →
      ∃ q, v = fin q ∧ minPlausibleHashrate ≤ q ∧ q ≤ maxPlausibleHashrate) ↔
    ∀ call ∈ calls, ¬ AnswersNaN call := by
  have hsrc₀ : (newHashrateFetcher d).sources = defaultHashrateSources d := rfl
  have htrust₀ : (newHashrateFetcher d).Trustworthy := by
    intro now v hv
    have hread : (newHashrateFetcher d).currentHashrate now = (0, false) :=
      if_pos ((fin_le_fin 0 0).mpr le_rfl)
    rw [hread] at hv
    cases hv
  rw [← hashrateFeed.meets_iff_forall (newHashrateFetcher d)]
  refine hashrateFeed.run_exact (A := fun _ f => f.sources = defaultHashrateSources d)
    (P := fun _ f => f.Trustworthy) hsrc₀ htrust₀ ?_ ?_ calls hcalls
  · intro _ f call _ hsrc
    exact (sources_fetch f call).trans hsrc
  · intro _ f call hcall hsrc hf
    exact trustworthy_fetch_iff hsrc (hsrc ▸ hcall) hf

/-- A JSON source that always reads 900 EH/s, and no finite numbers. -/
def sampleDecoding : Decoding where
  unmarshal _ := some (9 * 10 ^ 20)
  number _ := .error .invalid

/-- Both sources answer, the second one with the given text. -/
def sampleFetch (answer : List Char) : HashrateFetch where
  replies i := if i = 1 then .response 200 (text answer) false else .response 200 [] false
  order := [1, 0]
  now := 5

theorem hashrateFeed_publishes_nan :
    (hashrateFeed.run (newHashrateFetcher sampleDecoding)
      [sampleFetch ['N', 'a', 'N']]).currentHashrate 60 = (nan, true) ∧ ¬ InBand nan :=
  ⟨by decide +kernel, not_inBand_nan⟩

theorem hashrateFeed_inBand_without_nan :
    (sampleFetch ['o', 'o', 'p', 's']).Complete (defaultHashrateSources sampleDecoding) ∧
    ∀ pre, pre <+: [sampleFetch ['o', 'o', 'p', 's']] → ∀ now v,
      (hashrateFeed.run (newHashrateFetcher sampleDecoding) pre).currentHashrate now = (v, true) →
      ∃ q, v = fin q ∧ minPlausibleHashrate ≤ q ∧ q ≤ maxPlausibleHashrate := by
  have hcomplete : (sampleFetch ['o', 'o', 'p', 's']).Complete
      (defaultHashrateSources sampleDecoding) := List.Perm.swap 0 1 []
  refine ⟨hcomplete, (hashrateFeed_inBand_iff sampleDecoding _ ?_).mpr ?_⟩
  · intro call hcall
    rwa [List.mem_singleton.mp hcall]
  · intro call hcall
    rw [List.mem_singleton.mp hcall]
    rintro ⟨stream, broken, body, hreply, hbody, hspells⟩
    cases hreply
    have hread : readBody (text ['o', 'o', 'p', 's']) false =
        .ok (text ['o', 'o', 'p', 's']) := by decide +kernel
    obtain rfl := Except.ok.inj (hread.symm.trans hbody)
    exact absurd hspells (by decide)

end Otedama.Rates
