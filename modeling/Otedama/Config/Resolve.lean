import Otedama.Framework.GoFloat
import Otedama.Framework.GoMap

/-! # Configuration layers

The configuration starts from the defaults and is overridden by the file,
then by environment variables, then by flags; for each field it is noted
which layer had the last word.

A layer sets a field or leaves it alone: a text or a list is set when it
is not empty, a number of the file when it is not zero, and a number of
the environment when its text is not empty and can be read. So zero can
be asked for in the environment only.

`resolve_text`, `resolve_number` and `resolve_lists` say that each field
has the value and the origin of the highest layer that sets it (`highest`).

The reader of numbers and the data directory of the operating system are
parameters. -/

namespace Otedama

open GoString List

/-! ## Configurations -/

namespace Config

structure PoolConfig where
  url : GoString
  user : GoString
  password : GoString
  payoutScheme : GoString
  tlsCAFile : GoString
  deriving DecidableEq

structure WorkerConfig where
  name : GoString
  deriving DecidableEq

end Config

open Config

structure Config where
  bitcoinAddress : GoString
  bitcoinAddresses : List GoString
  pools : List PoolConfig
  workers : WorkerConfig
  language : GoString
  logLevel : GoString
  logFormat : GoString
  dataDir : GoString
  arbitrationHysteresisPct : GoFloat
  curtailBelowBTCUSD : GoFloat
  minYieldSatsPerSec : GoFloat
  powerWatts : GoFloat
  electricityPricePerKWh : GoFloat
  httpAddr : GoString
  deriving DecidableEq

namespace Config

def logLevelInfo : GoString := text "info".toList

def logFormatText : GoString := text "text".toList

def defaults : Config where
  bitcoinAddress := []
  bitcoinAddresses := []
  pools := []
  workers := ⟨[]⟩
  language := []
  logLevel := logLevelInfo
  logFormat := logFormatText
  dataDir := []
  arbitrationHysteresisPct := .fin (5 / 100)
  curtailBelowBTCUSD := 0
  minYieldSatsPerSec := 0
  powerWatts := 0
  electricityPricePerKWh := 0
  httpAddr := []

/-- The configuration of an empty file. -/
def emptyFile : Config :=
  { defaults with logLevel := [], logFormat := [], arbitrationHysteresisPct := 0 }

structure FlagValues where
  bitcoinAddress : GoString
  logLevel : GoString
  logFormat : GoString
  language : GoString
  dataDir : GoString
  httpAddr : GoString
  deriving DecidableEq

inductive ValueOrigin where
  | default
  | file
  | env
  | flag
  deriving DecidableEq, Repr

structure Origins where
  bitcoinAddress : ValueOrigin := .default
  bitcoinAddresses : ValueOrigin := .default
  pools : ValueOrigin := .default
  workerName : ValueOrigin := .default
  language : ValueOrigin := .default
  logLevel : ValueOrigin := .default
  logFormat : ValueOrigin := .default
  dataDir : ValueOrigin := .default
  arbitrationHysteresisPct : ValueOrigin := .default
  curtailBelowBTCUSD : ValueOrigin := .default
  minYieldSatsPerSec : ValueOrigin := .default
  powerWatts : ValueOrigin := .default
  electricityPricePerKWh : ValueOrigin := .default
  httpAddr : ValueOrigin := .default
  deriving DecidableEq, Repr

/-- What the layers write to: `cfg` and `o` of the source. -/
structure Resolved where
  cfg : Config
  o : Origins
  deriving DecidableEq

/-! ## Fields -/

inductive TextField where
  | bitcoinAddress
  | workerName
  | language
  | logLevel
  | logFormat
  | dataDir
  | httpAddr
  deriving DecidableEq, Repr

inductive NumberField where
  | arbitrationHysteresisPct
  | minYieldSatsPerSec
  | curtailBelowBTCUSD
  | powerWatts
  | electricityPricePerKWh
  deriving DecidableEq, Repr

/-- The value of a field and where it is from. -/
def TextField.slot (f : TextField) (r : Resolved) : GoString × ValueOrigin :=
  match f with
  | .bitcoinAddress => (r.cfg.bitcoinAddress, r.o.bitcoinAddress)
  | .workerName => (r.cfg.workers.name, r.o.workerName)
  | .language => (r.cfg.language, r.o.language)
  | .logLevel => (r.cfg.logLevel, r.o.logLevel)
  | .logFormat => (r.cfg.logFormat, r.o.logFormat)
  | .dataDir => (r.cfg.dataDir, r.o.dataDir)
  | .httpAddr => (r.cfg.httpAddr, r.o.httpAddr)

def TextField.put (f : TextField) (layer : ValueOrigin) (v : GoString) (r : Resolved) : Resolved :=
  match f with
  | .bitcoinAddress => ⟨{ r.cfg with bitcoinAddress := v }, { r.o with bitcoinAddress := layer }⟩
  | .workerName => ⟨{ r.cfg with workers.name := v }, { r.o with workerName := layer }⟩
  | .language => ⟨{ r.cfg with language := v }, { r.o with language := layer }⟩
  | .logLevel => ⟨{ r.cfg with logLevel := v }, { r.o with logLevel := layer }⟩
  | .logFormat => ⟨{ r.cfg with logFormat := v }, { r.o with logFormat := layer }⟩
  | .dataDir => ⟨{ r.cfg with dataDir := v }, { r.o with dataDir := layer }⟩
  | .httpAddr => ⟨{ r.cfg with httpAddr := v }, { r.o with httpAddr := layer }⟩

def NumberField.slot (f : NumberField) (r : Resolved) : GoFloat × ValueOrigin :=
  match f with
  | .arbitrationHysteresisPct => (r.cfg.arbitrationHysteresisPct, r.o.arbitrationHysteresisPct)
  | .minYieldSatsPerSec => (r.cfg.minYieldSatsPerSec, r.o.minYieldSatsPerSec)
  | .curtailBelowBTCUSD => (r.cfg.curtailBelowBTCUSD, r.o.curtailBelowBTCUSD)
  | .powerWatts => (r.cfg.powerWatts, r.o.powerWatts)
  | .electricityPricePerKWh => (r.cfg.electricityPricePerKWh, r.o.electricityPricePerKWh)

def NumberField.put (f : NumberField) (layer : ValueOrigin) (v : GoFloat) (r : Resolved) :
    Resolved :=
  match f with
  | .arbitrationHysteresisPct =>
      ⟨{ r.cfg with arbitrationHysteresisPct := v }, { r.o with arbitrationHysteresisPct := layer }⟩
  | .minYieldSatsPerSec =>
      ⟨{ r.cfg with minYieldSatsPerSec := v }, { r.o with minYieldSatsPerSec := layer }⟩
  | .curtailBelowBTCUSD =>
      ⟨{ r.cfg with curtailBelowBTCUSD := v }, { r.o with curtailBelowBTCUSD := layer }⟩
  | .powerWatts => ⟨{ r.cfg with powerWatts := v }, { r.o with powerWatts := layer }⟩
  | .electricityPricePerKWh =>
      ⟨{ r.cfg with electricityPricePerKWh := v }, { r.o with electricityPricePerKWh := layer }⟩

/-! ## The layers -/

/-- `if v != "" { cfg.f = v; o.f = layer }` -/
def setText (layer : ValueOrigin) (f : TextField) (v : GoString) (r : Resolved) : Resolved :=
  if v = [] then r else f.put layer v r

/-- `if v != 0 { cfg.f = v; o.f = layer }` -/
def setNumber (layer : ValueOrigin) (f : NumberField) (v : GoFloat) (r : Resolved) : Resolved :=
  if v = 0 then r else f.put layer v r

def setBitcoinAddresses (layer : ValueOrigin) (v : List GoString) (r : Resolved) : Resolved :=
  if v = [] then r
  else ⟨{ r.cfg with bitcoinAddresses := v }, { r.o with bitcoinAddresses := layer }⟩

def setPools (layer : ValueOrigin) (v : List PoolConfig) (r : Resolved) : Resolved :=
  if v = [] then r else ⟨{ r.cfg with pools := v }, { r.o with pools := layer }⟩

def applyFileLayer (fromFile : Config) (r : Resolved) : Resolved :=
  let r := setText .file .bitcoinAddress fromFile.bitcoinAddress r
  let r := setBitcoinAddresses .file fromFile.bitcoinAddresses r
  let r := setPools .file fromFile.pools r
  let r := setText .file .workerName fromFile.workers.name r
  let r := setText .file .language fromFile.language r
  let r := setText .file .logLevel fromFile.logLevel r
  let r := setText .file .logFormat fromFile.logFormat r
  let r := setText .file .dataDir fromFile.dataDir r
  let r := setNumber .file .arbitrationHysteresisPct fromFile.arbitrationHysteresisPct r
  let r := setNumber .file .minYieldSatsPerSec fromFile.minYieldSatsPerSec r
  let r := setNumber .file .curtailBelowBTCUSD fromFile.curtailBelowBTCUSD r
  let r := setNumber .file .powerWatts fromFile.powerWatts r
  let r := setNumber .file .electricityPricePerKWh fromFile.electricityPricePerKWh r
  setText .file .httpAddr fromFile.httpAddr r

/-- `getEnv`: the environment of the process is read if `env` is nil. A
variable that is not set reads as the empty text. -/
def getEnv (osEnv : GoString → GoString) (env : Option (GoMap GoString GoString))
    (key : GoString) : GoString :=
  match env with
  | some m => (m.lookup key).getD []
  | none => osEnv key

def numericEnvVars : List (GoString × NumberField) :=
  [(text "OTEDAMA_ARBITRATION_HYSTERESIS_PCT".toList, .arbitrationHysteresisPct),
    (text "OTEDAMA_MIN_YIELD_SATS_PER_SEC".toList, .minYieldSatsPerSec),
    (text "OTEDAMA_CURTAIL_BELOW_BTC_USD".toList, .curtailBelowBTCUSD),
    (text "OTEDAMA_POWER_WATTS".toList, .powerWatts),
    (text "OTEDAMA_ELECTRICITY_PRICE_PER_KWH".toList, .electricityPricePerKWh)]

section

variable (parseFloat : GoString → Option GoFloat)

/-- The body of the loop over `numericEnvVars`. -/
def applyNumericEnvVar (env : GoString → GoString) (r : Resolved) (spec : GoString × NumberField) :
    Resolved :=
  if env spec.1 = [] then r
  else
    match parseFloat (env spec.1) with
    | some v => spec.2.put .env v r
    | none => r

def applyEnvLayer (env : GoString → GoString) (r : Resolved) : Resolved :=
  let r := setText .env .bitcoinAddress (env (text "OTEDAMA_BITCOIN_ADDRESS".toList)) r
  let r := setText .env .logLevel (env (text "OTEDAMA_LOG_LEVEL".toList)) r
  let r := setText .env .logFormat (env (text "OTEDAMA_LOG_FORMAT".toList)) r
  let r := setText .env .language (env (text "OTEDAMA_LANGUAGE".toList)) r
  let r := setText .env .dataDir (env (text "OTEDAMA_DATA_DIR".toList)) r
  let r := setText .env .httpAddr (env (text "OTEDAMA_HTTP_ADDR".toList)) r
  numericEnvVars.foldl (applyNumericEnvVar parseFloat env) r

def applyFlagLayer (flags : FlagValues) (r : Resolved) : Resolved :=
  let r := setText .flag .bitcoinAddress flags.bitcoinAddress r
  let r := setText .flag .logLevel flags.logLevel r
  let r := setText .flag .logFormat flags.logFormat r
  let r := setText .flag .language flags.language r
  let r := setText .flag .dataDir flags.dataDir r
  setText .flag .httpAddr flags.httpAddr r

def resolveWithOrigins (defaultDataDir : GoString) (fromFile : Config) (env : GoString → GoString)
    (flags : FlagValues) : Resolved :=
  let r := applyFlagLayer flags
    (applyEnvLayer parseFloat env (applyFileLayer fromFile ⟨defaults, {}⟩))
  if r.cfg.dataDir = [] then { r with cfg.dataDir := defaultDataDir } else r

end

/-! ## Precedence -/

/-- The value of the first of the layers that sets one, and that layer. -/
def highest {α : Type} (fallback : α) : List (ValueOrigin × Option α) → α × ValueOrigin
  | [] => (fallback, .default)
  | (layer, some v) :: _ => (v, layer)
  | (_, none) :: layers => highest fallback layers

/-- What one layer makes of a field. -/
def override {α : Type} (layer : ValueOrigin) (v : Option α) (below : α × ValueOrigin) :
    α × ValueOrigin :=
  match v with
  | some v => (v, layer)
  | none => below

theorem override_highest {α : Type} (layer : ValueOrigin) (v : Option α) (fallback : α)
    (layers : List (ValueOrigin × Option α)) :
    override layer v (highest fallback layers) = highest fallback ((layer, v) :: layers) := by
  cases v <;> rfl

/-- A text or a list that sets its field. -/
def nonEmpty {α : Type} (v : List α) : Option (List α) := if v.isEmpty then none else some v

theorem nonEmpty_ne_nil {α : Type} (v : List α) : nonEmpty v ≠ some [] := by
  cases v <;> simp [nonEmpty]

/-- Layers that set no empty value tell an empty fallback from a value. -/
theorem highest_of_nil {α : Type} (fallback : List α) {layers : List (ValueOrigin × Option (List α))}
    (h : ∀ l ∈ layers, l.2 ≠ some []) : highest fallback layers =
      if (highest [] layers).1 = [] then (fallback, (highest [] layers).2)
      else highest [] layers := by
  induction layers with
  | nil => rfl
  | cons l layers ih =>
    obtain ⟨layer, v⟩ := l
    cases v with
    | none => exact ih fun x hx => h x (mem_cons_of_mem _ hx)
    | some v =>
      have hv : v ≠ [] := fun hnil => h _ mem_cons_self (congrArg some hnil)
      exact (if_neg hv).symm

/-- A number of the file that sets its field. -/
def nonZero (v : GoFloat) : Option GoFloat := if v = 0 then none else some v

/-- A number of the environment that sets its field. -/
def parsed (parseFloat : GoString → Option GoFloat) (v : GoString) : Option GoFloat :=
  if v = [] then none else parseFloat v

theorem slot_put_text (f g : TextField) (layer : ValueOrigin) (v : GoString) (r : Resolved) :
    f.slot (g.put layer v r) = if f = g then (v, layer) else f.slot r := by
  cases f <;> cases g <;> rfl

theorem slot_put_number (f g : NumberField) (layer : ValueOrigin) (v : GoFloat) (r : Resolved) :
    f.slot (g.put layer v r) = if f = g then (v, layer) else f.slot r := by
  cases f <;> cases g <;> rfl

theorem text_slot_put_number (f : TextField) (g : NumberField) (layer : ValueOrigin) (v : GoFloat)
    (r : Resolved) : f.slot (g.put layer v r) = f.slot r := by
  cases f <;> cases g <;> rfl

theorem number_slot_put_text (f : NumberField) (g : TextField) (layer : ValueOrigin) (v : GoString)
    (r : Resolved) : f.slot (g.put layer v r) = f.slot r := by
  cases f <;> cases g <;> rfl

section

variable (layer : ValueOrigin) (r : Resolved)

@[simp] theorem text_setText (f g : TextField) (v : GoString) :
    f.slot (setText layer g v r) =
      if f = g then override layer (nonEmpty v) (f.slot r) else f.slot r := by
  unfold setText
  cases v with
  | nil => simp [nonEmpty, override]
  | cons b v =>
    rw [if_neg (cons_ne_nil b v), slot_put_text]
    rfl

@[simp] theorem text_setNumber (f : TextField) (g : NumberField) (v : GoFloat) :
    f.slot (setNumber layer g v r) = f.slot r := by
  unfold setNumber
  split
  · rfl
  · exact text_slot_put_number ..

@[simp] theorem text_setBitcoinAddresses (f : TextField) (v : List GoString) :
    f.slot (setBitcoinAddresses layer v r) = f.slot r := by
  unfold setBitcoinAddresses
  split
  · rfl
  · cases f <;> rfl

@[simp] theorem text_setPools (f : TextField) (v : List PoolConfig) :
    f.slot (setPools layer v r) = f.slot r := by
  unfold setPools
  split
  · rfl
  · cases f <;> rfl

@[simp] theorem number_setText (f : NumberField) (g : TextField) (v : GoString) :
    f.slot (setText layer g v r) = f.slot r := by
  unfold setText
  split
  · rfl
  · exact number_slot_put_text ..

@[simp] theorem number_setNumber (f g : NumberField) (v : GoFloat) :
    f.slot (setNumber layer g v r) =
      if f = g then override layer (nonZero v) (f.slot r) else f.slot r := by
  unfold setNumber nonZero
  split
  · simp [override]
  · rw [slot_put_number]
    rfl

@[simp] theorem number_setBitcoinAddresses (f : NumberField) (v : List GoString) :
    f.slot (setBitcoinAddresses layer v r) = f.slot r := by
  unfold setBitcoinAddresses
  split
  · rfl
  · cases f <;> rfl

@[simp] theorem number_setPools (f : NumberField) (v : List PoolConfig) :
    f.slot (setPools layer v r) = f.slot r := by
  unfold setPools
  split
  · rfl
  · cases f <;> rfl

end

section

variable (parseFloat : GoString → Option GoFloat) (env : GoString → GoString) (r : Resolved)

@[simp] theorem text_applyNumericEnvVar (f : TextField) (spec : GoString × NumberField) :
    f.slot (applyNumericEnvVar parseFloat env r spec) = f.slot r := by
  unfold applyNumericEnvVar
  split
  · rfl
  · split
    · exact text_slot_put_number ..
    · rfl

@[simp] theorem number_applyNumericEnvVar (f : NumberField) (spec : GoString × NumberField) :
    f.slot (applyNumericEnvVar parseFloat env r spec) =
      if f = spec.2 then override .env (parsed parseFloat (env spec.1)) (f.slot r)
      else f.slot r := by
  unfold applyNumericEnvVar parsed
  split
  · simp [override]
  · cases parseFloat (env spec.1) with
    | none => simp [override]
    | some v => exact slot_put_number ..

end

/-- The variable that sets a text; worker names have none. -/
def TextField.envKey : TextField → Option GoString
  | .bitcoinAddress => some (text "OTEDAMA_BITCOIN_ADDRESS".toList)
  | .workerName => none
  | .language => some (text "OTEDAMA_LANGUAGE".toList)
  | .logLevel => some (text "OTEDAMA_LOG_LEVEL".toList)
  | .logFormat => some (text "OTEDAMA_LOG_FORMAT".toList)
  | .dataDir => some (text "OTEDAMA_DATA_DIR".toList)
  | .httpAddr => some (text "OTEDAMA_HTTP_ADDR".toList)

/-- The flag that sets a text; worker names have none. -/
def TextField.flag (f : TextField) (flags : FlagValues) : Option GoString :=
  match f with
  | .bitcoinAddress => some flags.bitcoinAddress
  | .workerName => none
  | .language => some flags.language
  | .logLevel => some flags.logLevel
  | .logFormat => some flags.logFormat
  | .dataDir => some flags.dataDir
  | .httpAddr => some flags.httpAddr

def TextField.ofConfig (f : TextField) (c : Config) : GoString := (f.slot ⟨c, {}⟩).1

/-- The layers above the defaults that can set a text. -/
def TextField.layers (f : TextField) (fromFile : Config) (env : GoString → GoString)
    (flags : FlagValues) : List (ValueOrigin × Option GoString) :=
  [(.flag, (f.flag flags).bind nonEmpty), (.env, f.envKey.bind fun key => nonEmpty (env key)),
    (.file, nonEmpty (f.ofConfig fromFile))]

/-- The default; for the data directory that of the operating system. -/
def TextField.fallback (defaultDataDir : GoString) (f : TextField) : GoString :=
  f.ofConfig { defaults with dataDir := defaultDataDir }

def NumberField.envKey : NumberField → GoString
  | .arbitrationHysteresisPct => text "OTEDAMA_ARBITRATION_HYSTERESIS_PCT".toList
  | .minYieldSatsPerSec => text "OTEDAMA_MIN_YIELD_SATS_PER_SEC".toList
  | .curtailBelowBTCUSD => text "OTEDAMA_CURTAIL_BELOW_BTC_USD".toList
  | .powerWatts => text "OTEDAMA_POWER_WATTS".toList
  | .electricityPricePerKWh => text "OTEDAMA_ELECTRICITY_PRICE_PER_KWH".toList

def NumberField.ofConfig (f : NumberField) (c : Config) : GoFloat := (f.slot ⟨c, {}⟩).1

/-- The layers above the defaults that can set a number. -/
def NumberField.layers (parseFloat : GoString → Option GoFloat) (f : NumberField)
    (fromFile : Config) (env : GoString → GoString) : List (ValueOrigin × Option GoFloat) :=
  [(.env, parsed parseFloat (env f.envKey)), (.file, nonZero (f.ofConfig fromFile))]

section

variable (parseFloat : GoString → Option GoFloat) (defaultDataDir : GoString) (fromFile : Config)
  (env : GoString → GoString) (flags : FlagValues)

/-- The three layers, before the data directory is filled in. -/
theorem layers_text (f : TextField) : f.slot (applyFlagLayer flags
      (applyEnvLayer parseFloat env (applyFileLayer fromFile ⟨defaults, {}⟩))) =
        highest (f.ofConfig defaults) (f.layers fromFile env flags) := by
  rw [TextField.layers, ← override_highest, ← override_highest, ← override_highest]
  cases f <;> simp [applyFlagLayer, applyEnvLayer, applyFileLayer, numericEnvVars] <;> rfl

/-- **Precedence of texts.**  A text has the value and the origin of the
highest layer that sets it. -/
theorem resolve_text (f : TextField) :
    f.slot (resolveWithOrigins parseFloat defaultDataDir fromFile env flags) =
      highest (f.fallback defaultDataDir) (f.layers fromFile env flags) := by
  have hlayers := layers_text parseFloat fromFile env flags f
  unfold resolveWithOrigins
  cases f with
  | dataDir =>
    have hset : ∀ l ∈ TextField.dataDir.layers fromFile env flags, l.2 ≠ some [] := by
      intro l hl
      simp only [TextField.layers, TextField.flag, TextField.envKey, Option.bind_some,
        mem_cons, not_mem_nil, or_false] at hl
      rcases hl with rfl | rfl | rfl <;> exact nonEmpty_ne_nil _
    have hnil : highest [] (TextField.dataDir.layers fromFile env flags) = _ := hlayers.symm
    rw [highest_of_nil _ hset, hnil]
    dsimp only
    split
    · next hnil => exact (if_pos hnil).symm
    · next hnil => exact (if_neg hnil).symm
  | _ =>
    dsimp only
    split
    · exact hlayers
    · exact hlayers

/-- **Precedence of numbers.** -/
theorem resolve_number (f : NumberField) :
    f.slot (resolveWithOrigins parseFloat defaultDataDir fromFile env flags) =
      highest (f.ofConfig defaults) (f.layers parseFloat fromFile env) := by
  have hlayers : f.slot (applyFlagLayer flags
      (applyEnvLayer parseFloat env (applyFileLayer fromFile ⟨defaults, {}⟩))) =
        highest (f.ofConfig defaults) (f.layers parseFloat fromFile env) := by
    rw [NumberField.layers, ← override_highest, ← override_highest]
    cases f <;> simp [applyFlagLayer, applyEnvLayer, applyFileLayer, numericEnvVars] <;> rfl
  unfold resolveWithOrigins
  dsimp only
  split
  · cases f <;> exact hlayers
  · exact hlayers

end

section

/-! The two lists are left alone by everything that sets a text or a number. -/

variable {β : Type} {view : Resolved → β}
  (htext : ∀ (f : TextField) layer v r, view (f.put layer v r) = view r)
  (hnumber : ∀ (f : NumberField) layer v r, view (f.put layer v r) = view r)

include htext in
theorem view_setText (layer : ValueOrigin) (f : TextField) (v : GoString) (r : Resolved) :
    view (setText layer f v r) = view r := by
  unfold setText
  split
  · rfl
  · exact htext f layer v r

include hnumber in
theorem view_setNumber (layer : ValueOrigin) (f : NumberField) (v : GoFloat) (r : Resolved) :
    view (setNumber layer f v r) = view r := by
  unfold setNumber
  split
  · rfl
  · exact hnumber f layer v r

include hnumber in
theorem view_applyNumericEnvVar (parseFloat : GoString → Option GoFloat)
    (env : GoString → GoString) (r : Resolved) (spec : GoString × NumberField) :
    view (applyNumericEnvVar parseFloat env r spec) = view r := by
  unfold applyNumericEnvVar
  split
  · rfl
  · split
    · exact hnumber ..
    · rfl

variable (parseFloat : GoString → Option GoFloat) (defaultDataDir : GoString) (fromFile : Config)
  (env : GoString → GoString) (flags : FlagValues)

variable (view) in
include htext hnumber in
/-- What is neither a text nor a number is set by the file only. -/
theorem view_resolveWithOrigins (hdir : ∀ r v, view { r with cfg.dataDir := v } = view r) :
    view (resolveWithOrigins parseFloat defaultDataDir fromFile env flags) =
      view (setPools .file fromFile.pools
        (setBitcoinAddresses .file fromFile.bitcoinAddresses
          (setText .file .bitcoinAddress fromFile.bitcoinAddress ⟨defaults, {}⟩))) := by
  unfold resolveWithOrigins
  dsimp only
  split <;>
    simp only [hdir, applyFlagLayer, applyEnvLayer, applyFileLayer, numericEnvVars, List.foldl_cons,
      List.foldl_nil, view_setText htext, view_setNumber hnumber, view_applyNumericEnvVar hnumber]

end

/-- Only the file has lists. -/
theorem resolve_lists {parseFloat : GoString → Option GoFloat} {defaultDataDir : GoString}
    {fromFile : Config} {env : GoString → GoString} {flags : FlagValues} {r : Resolved}
    (h : resolveWithOrigins parseFloat defaultDataDir fromFile env flags = r) :
    (r.cfg.bitcoinAddresses, r.o.bitcoinAddresses) =
        highest [] [(.file, nonEmpty fromFile.bitcoinAddresses)] ∧
      (r.cfg.pools, r.o.pools) = highest [] [(.file, nonEmpty fromFile.pools)] := by
  subst h
  refine Prod.mk.inj ((view_resolveWithOrigins
    (fun r => ((r.cfg.bitcoinAddresses, r.o.bitcoinAddresses), (r.cfg.pools, r.o.pools)))
    (fun f _ _ _ => by cases f <;> rfl) (fun f _ _ _ => by cases f <;> rfl) _ _ _ _ _
    fun _ _ => rfl).trans ?_)
  unfold setPools setBitcoinAddresses setText
  -- Each of the two lists and the address is empty in the file or not.
  split <;> split <;> split <;> simp_all [nonEmpty, highest, defaults, TextField.put]

end Config

end Otedama
