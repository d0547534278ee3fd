import Otedama.Config.Validate
import Otedama.Engine.Arbitrate

/-! # From the configuration to the decision

`Run` hands the resolved hysteresis to the arbitration loop, and on each
tick `arbitrationTick` passes it on to `Decide`, except that it takes a
zero for a missing value and puts the default in its place.

The layers resolve zero only where the environment variable says so, which
is the way the source recommends to ask for it. So the value decided with
is the resolved one unless the variable reads as zero
(`precedence_to_margin_iff`). -/

namespace Otedama.Config

open GoString Engine

/-- A finite number; `Validate` lets no others through. -/
def number : GoFloat → ℚ
  | .fin q => q
  | _ => 0

/-- What `Run` passes to the arbitration loop. -/
def loopOpts (cfg : Config) (devRefs : List Arbitration.DeviceRef) : ArbitrationOpts where
  devRefs := devRefs
  hysteresisPct := number cfg.arbitrationHysteresisPct
  minYield := number cfg.minYieldSatsPerSec
  powerWatts := number cfg.powerWatts
  powerPricePerKWh := number cfg.electricityPricePerKWh

/-- The tick decides with the configured margin unless that is zero. -/
theorem margin_eq_iff {cfg : Config} {q : ℚ} (h : cfg.arbitrationHysteresisPct = .fin q)
    (devRefs : List Arbitration.DeviceRef) (streams : List Arbitration.Stream)
    (prevAlloc : Option Arbitration.Allocation) (rate : ℚ) :
    GoFloat.fin (tickInput (loopOpts cfg devRefs) streams prevAlloc rate).hysteresisMargin =
      cfg.arbitrationHysteresisPct ↔ cfg.arbitrationHysteresisPct ≠ 0 := by
  have hnumber : (loopOpts cfg devRefs).hysteresisPct = q := by
    show number cfg.arbitrationHysteresisPct = q
    rw [h]
    rfl
  rw [h]
  show GoFloat.fin (margin (loopOpts cfg devRefs)) = .fin q ↔ GoFloat.fin q ≠ .fin 0
  unfold margin
  rw [hnumber, GoFloat.fin.injEq, ne_eq, GoFloat.fin.injEq]
  by_cases hzero : q = 0
  · rw [if_pos hzero, hzero]
    exact iff_of_false (by decide +kernel) (fun hne => hne rfl)
  · rw [if_neg hzero]
    exact iff_of_true rfl hzero

/-- The resolved hysteresis is zero exactly if the environment says so. -/
theorem hysteresis_eq_zero_iff (parseFloat : GoString → Option GoFloat) (defaultDataDir : GoString)
    (fromFile : Config) (env : GoString → GoString) (flags : FlagValues) :
    (resolveWithOrigins parseFloat defaultDataDir fromFile env flags).cfg.arbitrationHysteresisPct
        = 0 ↔ parsed parseFloat (env (NumberField.envKey .arbitrationHysteresisPct)) = some 0 := by
  have hslot := congrArg Prod.fst (resolve_number parseFloat defaultDataDir fromFile env flags
    .arbitrationHysteresisPct)
  change (resolveWithOrigins parseFloat defaultDataDir fromFile env
    flags).cfg.arbitrationHysteresisPct = _ at hslot
  rw [hslot, NumberField.layers]
  cases parsed parseFloat (env (NumberField.envKey .arbitrationHysteresisPct)) with
  | some v =>
    show v = 0 ↔ some v = some 0
    rw [Option.some_inj]
  | none =>
    refine iff_of_false ?_ (by simp)
    -- Neither the file nor the default is zero.
    unfold nonZero
    split
    · decide +kernel
    · next hne => exact hne

/-- **Precedence, up to the decision.**  Each field has the value and the
origin of the highest layer that sets it. If the configuration is
accepted, the tick decides with the resolved hysteresis if and only if the
environment variable does not read as zero. -/
theorem precedence_to_margin_iff (parseFloat : GoString → Option GoFloat)
    (defaultDataDir : GoString) (sha256 : List UInt8 → Bytes32) (m : CaseMapping)
    (fromFile : Config) (osEnv : GoString → GoString) (env : Option (GoMap GoString GoString))
    (flags : FlagValues) :
    let getenv := getEnv osEnv env
    let r := resolveWithOrigins parseFloat defaultDataDir fromFile getenv flags
    (∀ f : TextField,
      f.slot r = highest (f.fallback defaultDataDir) (f.layers fromFile getenv flags)) ∧
    (∀ f : NumberField,
      f.slot r = highest (f.ofConfig defaults) (f.layers parseFloat fromFile getenv)) ∧
    (r.cfg.bitcoinAddresses, r.o.bitcoinAddresses) =
      highest [] [(.file, nonEmpty fromFile.bitcoinAddresses)] ∧
    (r.cfg.pools, r.o.pools) = highest [] [(.file, nonEmpty fromFile.pools)] ∧
    (validate sha256 m r.cfg = [] → ∀ devRefs streams prevAlloc rate,
      (GoFloat.fin (tickInput (loopOpts r.cfg devRefs) streams prevAlloc rate).hysteresisMargin =
          r.cfg.arbitrationHysteresisPct ↔
        parsed parseFloat (getenv (NumberField.envKey .arbitrationHysteresisPct)) ≠ some 0)) := by
  intro getenv r
  refine ⟨resolve_text parseFloat defaultDataDir fromFile getenv flags,
    resolve_number parseFloat defaultDataDir fromFile getenv flags,
    (resolve_lists rfl).1, (resolve_lists rfl).2, ?_⟩
  intro hvalid devRefs streams prevAlloc rate
  obtain ⟨q, hq⟩ := finite_of_validate hvalid .arbitrationHysteresisPct
  rw [margin_eq_iff hq, ne_eq, ne_eq]
  exact not_congr (hysteresis_eq_zero_iff parseFloat defaultDataDir fromFile getenv flags)

/-- A reader of whole numbers. -/
def readWhole (s : GoString) : Option GoFloat := (decimal s).map fun n => .fin n

/-- The payout address is given by a flag. -/
def addressFlag : FlagValues := ⟨Btccrypto.sampleAddress, [], [], [], [], []⟩

/-- Ten per cent, set in the file, is resolved, accepted and decided with. -/
theorem file_margin_kept :
    ∃ r, r = resolveWithOrigins readWhole [] { emptyFile with arbitrationHysteresisPct := .fin 0.1 }
        (getEnv (fun _ => []) (some ∅)) addressFlag ∧
      validate (fun _ => Bytes.zero32) CaseMapping.ascii r.cfg = [] ∧
      r.cfg.arbitrationHysteresisPct = .fin 0.1 ∧ r.o.arbitrationHysteresisPct = .file ∧
      GoFloat.fin (tickInput (loopOpts r.cfg []) [] none 0).hysteresisMargin =
        r.cfg.arbitrationHysteresisPct := by
  refine ⟨_, rfl, ?_, ?_, ?_, ?_⟩
  · decide +kernel
  · decide +kernel
  · decide +kernel
  · refine ((precedence_to_margin_iff readWhole [] (fun _ => Bytes.zero32) CaseMapping.ascii
      _ (fun _ => []) (some ∅) addressFlag).2.2.2.2 ?_ [] [] none 0).mpr ?_
    · decide +kernel
    · decide +kernel

/-- Zero, asked for in the environment. -/
def zeroEnv : GoMap GoString GoString :=
  AList.singleton (NumberField.envKey .arbitrationHysteresisPct) (text ['0'])

/-- Zero is resolved and accepted, and the tick decides with five per cent. -/
theorem zero_margin_replaced :
    ∃ r, r = resolveWithOrigins readWhole [] emptyFile (getEnv (fun _ => []) (some zeroEnv))
        addressFlag ∧
      validate (fun _ => Bytes.zero32) CaseMapping.ascii r.cfg = [] ∧
      r.cfg.arbitrationHysteresisPct = 0 ∧ r.o.arbitrationHysteresisPct = .env ∧
      (tickInput (loopOpts r.cfg []) [] none 0).hysteresisMargin = 5 / 100 := by
  refine ⟨_, rfl, ?_, ?_, ?_, ?_⟩
  all_goals decide +kernel

end Otedama.Config
