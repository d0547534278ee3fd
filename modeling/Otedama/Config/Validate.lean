import Otedama.Btccrypto.Script
import Otedama.Config.Resolve

/-! # Validation

`Validate` collects everything that is wrong with a configuration. A
configuration is accepted if nothing is (`validate c = []`).

An issue carries the field, its position in a list and what was found; the
text of the message is not modelled. -/

namespace Otedama.Config

open GoString Btccrypto List

/-! ## Addresses -/

inductive AddressProblem where
  | tooShort (length : Nat)
  | tooLong (length : Nat)
  | unsupportedPrefix
  | checksum (err : AddressError)
  deriving DecidableEq

def validateBitcoinAddress (sha256 : List UInt8 → Bytes32) (m : CaseMapping) (addr : GoString) :
    Except AddressProblem Unit :=
  if addr.length < 26 then .error (.tooShort addr.length)
  else if 90 < addr.length then .error (.tooLong addr.length)
  else if text ['1'] <+: addr ∨ text ['3'] <+: addr ∨ text ['b', 'c', '1'] <+: addr then
    match validateAddress sha256 m addr with
    | .ok _ => .ok ()
    | .error err => .error (.checksum err)
  else .error .unsupportedPrefix

/-! ## Pools -/

inductive HostPortError where
  | missingPort
  | missingBracket
  | tooManyColons
  | unexpectedOpen
  | unexpectedClose
  deriving DecidableEq, Repr

/-- The end of `net.SplitHostPort`: a colon at `i` in front of the port, no
bracket behind `j` and `k`. -/
def cutHostPort (s host : GoString) (i j k : Nat) :
    Except HostPortError (GoString × GoString) :=
  if asciiByte '[' ∈ s.drop j then .error .unexpectedOpen
  else if asciiByte ']' ∈ s.drop k then .error .unexpectedClose
  else .ok (host, s.drop (i + 1))

/-- `net.SplitHostPort` -/
def splitHostPort (s : GoString) : Except HostPortError (GoString × GoString) :=
  match lastIndexByte (asciiByte ':') s with
  | none => .error .missingPort
  | some i =>
      if s.head? = some (asciiByte '[') then
        match indexByte (asciiByte ']') s with
        | none => .error .missingBracket
        | some e =>
            if e + 1 = s.length then .error .missingPort
            else if e + 1 = i then cutHostPort s ((s.take e).drop 1) i 1 (e + 1)
            else if s[e + 1]? = some (asciiByte ':') then .error .tooManyColons
            else .error .missingPort
      else if asciiByte ':' ∈ s.take i then .error .tooManyColons
      else cutHostPort s (s.take i) i 0 0

/-- The number that decimal digits stand for. -/
def decimal (s : GoString) : Option Nat :=
  if s = [] then none
  else
    s.foldl (fun n b => n.bind fun n =>
      if 48 ≤ b ∧ b ≤ 57 then some (10 * n + (b.toNat - 48)) else none) (some 0)

/-- `strconv.Atoi`; `none` is an error. -/
def atoi (s : GoString) : Option Int :=
  match s with
  | [] => none
  | b :: digits =>
      if b = asciiByte '-' then
        (decimal digits).bind fun n => if n ≤ 2 ^ 63 then some (-n) else none
      else
        (decimal (if b = asciiByte '+' then digits else s)).bind fun n =>
          if n < 2 ^ 63 then some n else none

inductive PoolURLProblem where
  | scheme
  | noHost
  | notHostPort (rest : GoString)
  | hostPort (err : HostPortError)
  | emptyHost
  | port (port : GoString)
  deriving DecidableEq

def validatePoolTarget (rest : GoString) : Except PoolURLProblem Unit :=
  if rest = [] then .error .noHost
  else if rest.any (text ['@', '/', '?', '#', ' ', '\t']).contains then .error (.notHostPort rest)
  else
    match splitHostPort rest with
    | .error err => .error (.hostPort err)
    | .ok (host, port) =>
        if host = [] then .error .emptyHost
        else
          match atoi port with
          | none => .error (.port port)
          | some p => if p < 1 ∨ 65535 < p then .error (.port port) else .ok ()

def validSchemes : List GoString :=
  [text "stratum+tcp://".toList, text "stratum+tls://".toList, text "stratum+v2://".toList,
    text "stratum+v2tls://".toList]

def validatePoolURL (raw : GoString) : Except PoolURLProblem Unit :=
  match validSchemes.find? fun scheme => scheme.isPrefixOf raw with
  | some scheme => validatePoolTarget (raw.drop scheme.length)
  | none => .error .scheme

/-! ## The configuration -/

inductive Issue where
  | addressRequired
  | addressInvalid (problem : AddressProblem)
  | backupEmpty (i : Nat)
  | backupInvalid (i : Nat) (problem : AddressProblem)
  | logLevel (v : GoString)
  | logFormat (v : GoString)
  | poolURLEmpty (i : Nat)
  | poolURLInvalid (i : Nat) (problem : PoolURLProblem)
  | payoutScheme (i : Nat) (v : GoString)
  | notFinite (f : NumberField)
  | outOfRange (f : NumberField) (v : GoFloat)
  deriving DecidableEq

/-- The issue of a check that fails. -/
def issueOf {ε : Type} (r : Except ε Unit) (issue : ε → Issue) : List Issue :=
  match r with
  | .ok _ => []
  | .error e => [issue e]

section

variable (sha256 : List UInt8 → Bytes32) (m : CaseMapping) (c : Config)

def addressIssues : List Issue :=
  (if c.bitcoinAddress = [] ∧ c.bitcoinAddresses = [] then [.addressRequired]
   else if c.bitcoinAddress ≠ [] then
    issueOf (validateBitcoinAddress sha256 m c.bitcoinAddress) .addressInvalid
   else []) ++
  c.bitcoinAddresses.zipIdx.flatMap fun (a, i) =>
    if a = [] then [.backupEmpty i]
    else issueOf (validateBitcoinAddress sha256 m a) (.backupInvalid i)

/-- The cases of the `switch` over log levels. -/
def logLevels : List GoString :=
  [text "debug".toList, logLevelInfo, text "warn".toList, text "error".toList, []]

def logFormats : List GoString := [logFormatText, text "json".toList, []]

def payoutSchemes : List GoString :=
  [[], text "fpps".toList, text "pplns".toList, text "tides".toList, text "solo".toList]

def logIssues : List Issue :=
  (if logLevels.contains c.logLevel then [] else [.logLevel c.logLevel]) ++
  if logFormats.contains c.logFormat then [] else [.logFormat c.logFormat]

def poolIssues : List Issue :=
  c.pools.zipIdx.flatMap fun (p, i) =>
    (if p.url = [] then [.poolURLEmpty i]
     else issueOf (validatePoolURL p.url) (.poolURLInvalid i)) ++
    if payoutSchemes.contains p.payoutScheme then [] else [.payoutScheme i p.payoutScheme]

/-- `math.IsNaN(x) || math.IsInf(x, 0)` -/
def notFinite (x : GoFloat) : Bool :=
  match x with
  | .fin _ => false
  | _ => true

def finiteIssues : List Issue :=
  [NumberField.arbitrationHysteresisPct, .curtailBelowBTCUSD, .minYieldSatsPerSec, .powerWatts,
    .electricityPricePerKWh].flatMap fun f =>
      if notFinite (f.ofConfig c) then [.notFinite f] else []

/-- The check `c.f < 0`. -/
def negativeIssue (f : NumberField) : List Issue :=
  if f.ofConfig c < 0 then [.outOfRange f (f.ofConfig c)] else []

def numericIssues : List Issue :=
  finiteIssues c ++
  (if c.arbitrationHysteresisPct < 0 ∨ 1 ≤ c.arbitrationHysteresisPct then
    [.outOfRange .arbitrationHysteresisPct c.arbitrationHysteresisPct]
   else []) ++
  negativeIssue c .curtailBelowBTCUSD ++ negativeIssue c .minYieldSatsPerSec ++
  negativeIssue c .powerWatts ++ negativeIssue c .electricityPricePerKWh

def validate : List Issue :=
  addressIssues sha256 m c ++ logIssues c ++ poolIssues c ++ numericIssues c

end

/-! ## What is accepted -/

section

variable {sha256 : List UInt8 → Bytes32} {m : CaseMapping}

/-- The numbers of an accepted configuration are finite. -/
theorem finite_of_validate {c : Config} (h : validate sha256 m c = []) (f : NumberField) :
    ∃ q, f.ofConfig c = .fin q := by
  have hfinite : finiteIssues c = [] := by
    unfold validate numericIssues at h
    simp only [append_eq_nil_iff] at h
    tauto
  have hmem : f ∈ [NumberField.arbitrationHysteresisPct, .curtailBelowBTCUSD, .minYieldSatsPerSec,
      .powerWatts, .electricityPricePerKWh] := by
    cases f <;> decide
  have hissue := flatMap_eq_nil_iff.mp hfinite f hmem
  cases hvalue : f.ofConfig c with
  | fin q => exact ⟨q, rfl⟩
  | nan | posInf | negInf =>
    rw [hvalue] at hissue
    cases hissue

theorem validateAddress_of_issues {a : GoString} {issue : AddressProblem → Issue}
    (h : issueOf (validateBitcoinAddress sha256 m a) issue = []) :
    ∃ T, validateAddress sha256 m a = .ok T := by
  unfold validateBitcoinAddress at h
  split at h
  · cases h
  split at h
  · cases h
  split at h
  · cases hvalid : validateAddress sha256 m a with
    | ok T => exact ⟨T, rfl⟩
    | error err =>
      rw [hvalid] at h
      cases h
  · cases h

/-- An accepted configuration has a payout address, and the coinbase can be
checked for every one it has: each has an output script. -/
theorem accepted_addresses_pay {c : Config} (h : validate sha256 m c = []) :
    (c.bitcoinAddress ≠ [] ∨ c.bitcoinAddresses ≠ []) ∧
      ∀ a, (a ≠ [] ∧ a = c.bitcoinAddress) ∨ a ∈ c.bitcoinAddresses →
        ∃ script, scriptForAddress sha256 m a = .ok script := by
  unfold validate addressIssues at h
  simp only [append_eq_nil_iff] at h
  obtain ⟨⟨⟨⟨hprimary, hbackups⟩, -⟩, -⟩, -⟩ := h
  refine ⟨?_, ?_⟩
  · by_contra hnone
    rw [if_pos (by tauto)] at hprimary
    cases hprimary
  · suffices hvalid : ∀ a, (a ≠ [] ∧ a = c.bitcoinAddress) ∨ a ∈ c.bitcoinAddresses →
        ∃ T, validateAddress sha256 m a = .ok T by
      intro a ha
      obtain ⟨T, hT⟩ := hvalid a ha
      obtain ⟨script, hscript, -⟩ := scriptForAddress_of_valid hT
      exact ⟨script, hscript⟩
    rintro a (⟨hne, rfl⟩ | hmem)
    · rw [if_neg (by tauto), if_pos hne] at hprimary
      exact validateAddress_of_issues hprimary
    · obtain ⟨i, hi, rfl⟩ := mem_iff_getElem.mp hmem
      have hissues := flatMap_eq_nil_iff.mp hbackups (c.bitcoinAddresses[i], i) (by
        simp [mem_zipIdx_iff_getElem?])
      dsimp only at hissues
      split at hissues
      · cases hissues
      · exact validateAddress_of_issues hissues

end

theorem accepted_addresses_pay_sample :
    ∃ script, scriptForAddress (fun _ => Bytes.zero32) CaseMapping.ascii sampleAddress =
      .ok script :=
  (accepted_addresses_pay (c := { defaults with bitcoinAddress := sampleAddress })
    (by decide +kernel)).2 sampleAddress (.inl ⟨by decide, rfl⟩)

end Otedama.Config
