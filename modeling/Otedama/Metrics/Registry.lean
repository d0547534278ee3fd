import Otedama.Framework.Heap
import Otedama.Framework.Machine
import Otedama.Framework.PromText
import Otedama.Framework.SortOn

/-! # The metrics registry

Counters and gauges are registered under a name and a map of labels and
are found again under the same name and labels. The registry looks them
up by `metricKey`, a text in which neither the names nor the values of
the labels are quoted.

`Sound` is what every sequence of calls keeps: each metric is found under
its own key and nothing else is found, names and label names are those of
the exposition format, and no name is both a counter and a gauge.

Pointers are references into a heap of metrics, so that the same counter
means the same reference. Calls that panic leave the registry as it is. -/

namespace Otedama.Metrics

open GoString SortOn List
open PromText (comma equals isName)

abbrev Labels := GoMap GoString GoString

/-! ## Names -/

/-- The runes that the name tests let pass. Digits are not let pass in
front. -/
def nameRune (colon first : Bool) (r : Char) : Bool :=
  ('a' ≤ r && r ≤ 'z') || ('A' ≤ r && r ≤ 'Z') || r == '_' || (colon && r == ':') ||
    (!first && '0' ≤ r && r ≤ '9')

def isValidName (colon : Bool) (name : GoString) : Bool :=
  match runes name with
  | [] => false
  | r :: rs => nameRune colon true r && rs.all (nameRune colon false)

def isValidMetricName (name : GoString) : Bool := isValidName true name

def isValidLabelName (name : GoString) : Bool := isValidName false name

/-! ## Registration -/

/-- A counter or a gauge. -/
structure Metric (V : Type) where
  name : GoString
  help : GoString
  labels : Labels
  value : V

instance {V : Type} [Inhabited V] : Inhabited (Metric V) := ⟨⟨[], [], ∅, default⟩⟩

/-- A `map[string]*Counter`, or of gauges, with what the pointers lead to. -/
structure Family (V : Type) where
  index : GoMap GoString Ref
  cells : Heap (Metric V)

structure Registry (F : Type) where
  counters : Family UInt64
  gauges : Family F

def newRegistry {F : Type} : Registry F := ⟨⟨∅, Heap.empty⟩, ⟨∅, Heap.empty⟩⟩

inductive Panic where
  | invalidMetricName (name : GoString)
  | invalidLabelName (label name : GoString)
  | alreadyGauge (name : GoString)
  | alreadyCounter (name : GoString)
  deriving DecidableEq, Repr

def metricKey (name : GoString) (labels : Labels) : GoString :=
  if GoMap.len labels = 0 then name
  else
    name ++ (sortedEntries labels).flatMap fun l =>
      comma :: l.1 ++ equals :: l.2

/-- `gaugeNameExists` and `counterNameExists`. -/
def Family.nameExists {V : Type} [Inhabited V] (f : Family V) (name : GoString) : Bool :=
  f.index.entries.any fun e => (f.cells.read e.2).name == name

/-- The body that `NewCounter` and `NewGauge` share: `own` is the map of the
kind to be registered, `taken` tells whether the other kind has the name. -/
def register {V : Type} (zero : V) (own : Family V) (taken : Bool) (clash : Panic)
    (name help : GoString) (labels : Labels) : Except Panic (Family V × Ref) :=
  if !isValidMetricName name then .error (.invalidMetricName name)
  else
    match labels.keys.find? fun k => !isValidLabelName k with
    | some k => .error (.invalidLabelName k name)
    | none =>
        match own.index.lookup (metricKey name labels) with
        | some existing => .ok (own, existing)
        | none =>
            if taken then .error clash
            else
              .ok (⟨own.index.insert (metricKey name labels) own.cells.size,
                own.cells.alloc ⟨name, help, labels, zero⟩⟩, own.cells.size)

section

variable {F : Type} [Inhabited F]

def newCounter (r : Registry F) (name help : GoString) (labels : Labels) :
    Except Panic (Registry F × Ref) :=
  (register 0 r.counters (r.gauges.nameExists name) (.alreadyGauge name) name help labels).map
    fun x => ({ r with counters := x.1 }, x.2)

def newGauge (r : Registry F) (name help : GoString) (labels : Labels) :
    Except Panic (Registry F × Ref) :=
  (register default r.gauges (r.counters.nameExists name) (.alreadyCounter name) name help
    labels).map fun x => ({ r with gauges := x.1 }, x.2)

/-- `(*Counter).Add`; `Inc` adds one. -/
def add (r : Registry F) (c : Ref) (delta : UInt64) : Registry F :=
  let cell := r.counters.cells.read c
  { r with counters.cells := r.counters.cells.write c { cell with value := cell.value + delta } }

/-- `(*Gauge).Set`. -/
def set (r : Registry F) (g : Ref) (v : F) : Registry F :=
  { r with gauges.cells := r.gauges.cells.write g { r.gauges.cells.read g with value := v } }

end

/-- Calls of the package. -/
inductive Call (F : Type) where
  | newCounter (name help : GoString) (labels : Labels)
  | newGauge (name help : GoString) (labels : Labels)
  | add (c : Ref) (delta : UInt64)
  | set (g : Ref) (v : F)

inductive Kind where
  | counter
  | gauge
  deriving DecidableEq, Repr

/-- What a registration ends with. -/
inductive Result where
  | returned (kind : Kind) (ref : Ref)
  | panicked (p : Panic)
  deriving DecidableEq, Repr

/-- The registry as a machine. -/
def registry (F : Type) [Inhabited F] : Machine (Registry F) (Call F) Result where
  step r
    | .newCounter name help labels =>
        match newCounter r name help labels with
        | .ok (r', c) => (r', [.returned .counter c])
        | .error p => (r, [.panicked p])
    | .newGauge name help labels =>
        match newGauge r name help labels with
        | .ok (r', g) => (r', [.returned .gauge g])
        | .error p => (r, [.panicked p])
    | .add c delta => (add r c delta, [])
    | .set g v => (set r g v, [])

/-- The registry after the calls. -/
def after {F : Type} [Inhabited F] (calls : List (Call F)) : Registry F :=
  (registry F).run newRegistry calls

/-! ## What names are made of -/

theorem lt_of_nameRune {colon first : Bool} {r : Char} (h : nameRune colon first r = true) :
    r.toNat < 128 := by
  by_contra hlarge
  have hnot : nameRune colon first r = false := by
    have hle : ∀ c : Char, c.toNat < 128 → ¬ r ≤ c := by
      intro c hc hrc
      have : r.toNat ≤ c.toNat := hrc
      omega
    have hne : ∀ c : Char, c.toNat < 128 → ¬ r = c := by
      rintro c hc rfl
      exact hlarge hc
    simp [nameRune, hle 'z' (by decide), hle 'Z' (by decide), hle '9' (by decide),
      hne '_' (by decide), hne ':' (by decide)]
  rw [hnot] at h
  cases h

theorem nameByte_asciiByte {colon first : Bool} {r : Char} (h : nameRune colon first r = true) :
    PromText.nameByte colon first (asciiByte r) = true := by
  have hall : ∀ n, n < 128 → ∀ colon first : Bool, nameRune colon first (Char.ofNat n) = true →
      PromText.nameByte colon first (asciiByte (Char.ofNat n)) = true := by
    decide +kernel
  have hp := hall r.toNat (lt_of_nameRune h) colon first
  rw [Char.ofNat_toNat] at hp
  exact hp h

/-- The names let pass are those of the format. -/
theorem isName_of_isValidName {colon : Bool} {name : GoString} (h : isValidName colon name = true) :
    PromText.isName colon name = true := by
  unfold isValidName at h
  cases hruns : runes name with
  | nil =>
    rw [hruns] at h
    cases h
  | cons r rs =>
    rw [hruns, Bool.and_eq_true, all_eq_true] at h
    have hascii : ∀ c ∈ runes name, c.toNat < 128 := by
      intro c hc
      rw [hruns] at hc
      rcases mem_cons.mp hc with rfl | hc
      · exact lt_of_nameRune h.1
      · exact lt_of_nameRune (h.2 c hc)
    rw [eq_map_of_runes_ascii hascii, hruns, map_cons, PromText.isName, Bool.and_eq_true,
      all_eq_true]
    refine ⟨nameByte_asciiByte h.1, fun b hb => ?_⟩
    obtain ⟨c, hc, rfl⟩ := mem_map.mp hb
    exact nameByte_asciiByte (h.2 c hc)

/-! ## The two maps -/

section

variable {V : Type} [Inhabited V] {zero : V} {own own' : Family V} {taken : Bool} {clash : Panic}
  {name help : GoString} {labels : Labels} {key : GoString} {c c' : Ref}

omit [Inhabited V] in
/-- What a registration can do. -/
theorem register_cases (h : register zero own taken clash name help labels = .ok (own', c)) :
    isValidMetricName name = true ∧ (∀ k ∈ labels, isValidLabelName k = true) ∧
    ((own.index.lookup (metricKey name labels) = some c ∧ own' = own) ∨
      (own.index.lookup (metricKey name labels) = none ∧ taken = false ∧ c = own.cells.size ∧
        own' = ⟨own.index.insert (metricKey name labels) own.cells.size,
          own.cells.alloc ⟨name, help, labels, zero⟩⟩)) := by
  unfold register at h
  split at h
  · cases h
  · next hname =>
    split at h
    · cases h
    · next hlabels =>
      have hvalid : ∀ k ∈ labels, isValidLabelName k = true := by
        intro k hk
        have hnot := List.find?_eq_none.mp hlabels k (AList.mem_keys.mp hk)
        simpa using hnot
      refine ⟨by simpa using hname, hvalid, ?_⟩
      split at h
      · next existing hold =>
        cases h
        exact .inl ⟨hold, rfl⟩
      · next hnew =>
        cases taken with
        | true => cases h
        | false =>
          cases h
          exact .inr ⟨hnew, rfl, rfl, rfl⟩

/-- Each metric is found under its own key, and nothing else is found. -/
structure Family.Indexed (f : Family V) : Prop where
  key_eq : ∀ {key c}, f.index.lookup key = some c →
    c < f.cells.size ∧ metricKey (f.cells.read c).name (f.cells.read c).labels = key
  lookup : ∀ c < f.cells.size,
    f.index.lookup (metricKey (f.cells.read c).name (f.cells.read c).labels) = some c
  validName : ∀ c < f.cells.size, isValidMetricName (f.cells.read c).name = true
  validLabels : ∀ c < f.cells.size, ∀ k ∈ (f.cells.read c).labels, isValidLabelName k = true

/-- Writing a value changes no name and no labels. -/
theorem series_write (cells : Heap (Metric V)) (c : Ref) (v : V) {c' : Ref}
    (hc' : c' < cells.size) :
    ((cells.write c { cells.read c with value := v }).read c').name = (cells.read c').name ∧
    ((cells.write c { cells.read c with value := v }).read c').labels =
      (cells.read c').labels := by
  by_cases heq : c' = c
  · subst heq
    rw [Heap.read_write_self hc']
    exact ⟨rfl, rfl⟩
  · rw [Heap.read_write_ne heq]
    exact ⟨rfl, rfl⟩

theorem Family.Indexed.write (h : own.Indexed) (c : Ref) (v : V) :
    (⟨own.index, own.cells.write c { own.cells.read c with value := v }⟩ : Family V).Indexed := by
  have hsame := fun c' (hc' : c' < own.cells.size) => series_write own.cells c v hc'
  constructor
  · intro key c' hget
    obtain ⟨hlt, hkey⟩ := h.key_eq hget
    refine ⟨by rwa [Heap.size_write], ?_⟩
    rw [(hsame c' hlt).1, (hsame c' hlt).2]
    exact hkey
  all_goals
    intro c' hc'
    have hlt : c' < own.cells.size := by
      dsimp only at hc'
      rwa [Heap.size_write] at hc'
    first
      | rw [(hsame c' hlt).1, (hsame c' hlt).2]
        exact h.lookup c' hlt
      | rw [(hsame c' hlt).1]
        exact h.validName c' hlt
      | rw [(hsame c' hlt).2]
        exact h.validLabels c' hlt

theorem Family.Indexed.register (h : own.Indexed)
    (hreg : register zero own taken clash name help labels = .ok (own', c)) : own'.Indexed := by
  obtain ⟨hname, hlabels, ⟨-, rfl⟩ | ⟨hnew, -, rfl, rfl⟩⟩ := register_cases hreg
  · exact h
  · have hread : ∀ c' < own.cells.size,
        (own.cells.alloc ⟨name, help, labels, zero⟩).read c' = own.cells.read c' :=
      fun c' hc' => Heap.read_alloc_of_lt hc'
    -- A reference of the new heap is old or the one just given out.
    have hcases : ∀ c' < (own.cells.alloc ⟨name, help, labels, zero⟩).size,
        c' < own.cells.size ∨ c' = own.cells.size := by
      intro c' hc'
      rw [Heap.size_alloc] at hc'
      exact Nat.lt_succ_iff_lt_or_eq.mp hc'
    constructor
    · intro key c' hget
      rcases GoMap.lookup_insert_cases hget with ⟨rfl, rfl⟩ | ⟨-, hold⟩
      · rw [Heap.size_alloc, Heap.read_alloc_size]
        exact ⟨Nat.lt_succ_self _, rfl⟩
      · obtain ⟨hlt, hkey⟩ := h.key_eq hold
        dsimp only
        rw [Heap.size_alloc, hread c' hlt]
        exact ⟨Nat.lt_succ_of_lt hlt, hkey⟩
    · intro c' hc'
      dsimp only at hc' ⊢
      rcases hcases c' hc' with hlt | rfl
      · have hne : metricKey (own.cells.read c').name (own.cells.read c').labels ≠
            metricKey name labels := by
          intro heq
          have hfound := h.lookup c' hlt
          rw [heq, hnew] at hfound
          cases hfound
        rw [hread c' hlt, AList.lookup_insert_ne hne]
        exact h.lookup c' hlt
      · rw [Heap.read_alloc_size, AList.lookup_insert]
    · intro c' hc'
      dsimp only at hc' ⊢
      rcases hcases c' hc' with hlt | rfl
      · rw [hread c' hlt]
        exact h.validName c' hlt
      · rw [Heap.read_alloc_size]
        exact hname
    · intro c' hc'
      dsimp only at hc' ⊢
      rcases hcases c' hc' with hlt | rfl
      · rw [hread c' hlt]
        exact h.validLabels c' hlt
      · rw [Heap.read_alloc_size]
        exact hlabels

omit [Inhabited V] in
/-- What was found is found after a further registration. -/
theorem lookup_register (hreg : register zero own taken clash name help labels = .ok (own', c))
    (hget : own.index.lookup key = some c') : own'.index.lookup key = some c' := by
  obtain ⟨-, -, ⟨-, rfl⟩ | ⟨hnew, -, -, rfl⟩⟩ := register_cases hreg
  · exact hget
  · have hne : key ≠ metricKey name labels := by
      rintro rfl
      rw [hnew] at hget
      cases hget
    rw [AList.lookup_insert_ne hne]
    exact hget

omit [Inhabited V] in
/-- What was registered is found under its key. -/
theorem lookup_of_register (hreg : register zero own taken clash name help labels = .ok (own', c)) :
    own'.index.lookup (metricKey name labels) = some c := by
  obtain ⟨-, -, ⟨hold, rfl⟩ | ⟨-, -, rfl, rfl⟩⟩ := register_cases hreg
  · exact hold
  · rw [AList.lookup_insert]

end

/-- A name that the test does not find belongs to no metric. -/
theorem Family.Indexed.name_ne {V : Type} [Inhabited V] {f : Family V} (h : f.Indexed)
    {name : GoString} (hnot : f.nameExists name = false) :
    ∀ c < f.cells.size, (f.cells.read c).name ≠ name := by
  rintro c hc rfl
  have hmem : ⟨_, c⟩ ∈ f.index.entries := AList.mem_lookup_iff.mp (h.lookup c hc)
  have hany := any_eq_false.mp hnot _ hmem
  simp at hany

/-! ## Runs -/

section

variable {F : Type} [Inhabited F]

/-- What a call can do: register a counter or a gauge, change a value, or
nothing. -/
theorem step_cases (r : Registry F) (call : Call F) :
    (∃ name help labels counters c, call = .newCounter name help labels ∧
      register 0 r.counters (r.gauges.nameExists name) (.alreadyGauge name) name help labels =
        .ok (counters, c) ∧
      (registry F).step r call = ({ r with counters }, [.returned .counter c])) ∨
    (∃ name help labels gauges g, call = .newGauge name help labels ∧
      register default r.gauges (r.counters.nameExists name) (.alreadyCounter name) name help
        labels = .ok (gauges, g) ∧
      (registry F).step r call = ({ r with gauges }, [.returned .gauge g])) ∨
    (∃ c delta, (registry F).step r call = (add r c delta, [])) ∨
    (∃ g v, (registry F).step r call = (set r g v, [])) ∨
    ∃ p, (registry F).step r call = (r, [.panicked p]) := by
  cases call with
  | newCounter name help labels =>
    cases hreg : register 0 r.counters (r.gauges.nameExists name) (.alreadyGauge name) name help
        labels with
    | error p =>
      refine .inr (.inr (.inr (.inr ⟨p, ?_⟩)))
      simp only [registry, newCounter, hreg, Except.map]
    | ok x =>
      refine .inl ⟨name, help, labels, x.1, x.2, rfl, hreg, ?_⟩
      simp only [registry, newCounter, hreg, Except.map]
  | newGauge name help labels =>
    cases hreg : register default r.gauges (r.counters.nameExists name) (.alreadyCounter name) name
        help labels with
    | error p =>
      refine .inr (.inr (.inr (.inr ⟨p, ?_⟩)))
      simp only [registry, newGauge, hreg, Except.map]
    | ok x =>
      refine .inr (.inl ⟨name, help, labels, x.1, x.2, rfl, hreg, ?_⟩)
      simp only [registry, newGauge, hreg, Except.map]
  | add c delta => exact .inr (.inr (.inl ⟨c, delta, rfl⟩))
  | set g v => exact .inr (.inr (.inr (.inl ⟨g, v, rfl⟩)))

/-- Both maps are as they should be, and no name is in both. -/
structure Sound (r : Registry F) : Prop where
  counters : r.counters.Indexed
  gauges : r.gauges.Indexed
  disjoint : ∀ c < r.counters.cells.size, ∀ g < r.gauges.cells.size,
    (r.counters.cells.read c).name ≠ (r.gauges.cells.read g).name

/-- The metrics of a map after a registration: the old ones, and the new one
if neither map had it. -/
theorem read_of_register {V : Type} [Inhabited V] {zero : V} {own own' : Family V} {taken : Bool}
    {clash : Panic} {name help : GoString} {labels : Labels} {c : Ref}
    (hreg : register zero own taken clash name help labels = .ok (own', c)) :
    ∀ c' < own'.cells.size, (c' < own.cells.size ∧ own'.cells.read c' = own.cells.read c') ∨
      (c' = c ∧ taken = false ∧ own'.cells.read c' = ⟨name, help, labels, zero⟩) := by
  obtain ⟨-, -, ⟨-, rfl⟩ | ⟨-, hfree, rfl, rfl⟩⟩ := register_cases hreg
  · exact fun c' hc' => .inl ⟨hc', rfl⟩
  · intro c' hc'
    dsimp only at hc' ⊢
    rw [Heap.size_alloc] at hc'
    rcases Nat.lt_succ_iff_lt_or_eq.mp hc' with hlt | rfl
    · exact .inl ⟨hlt, Heap.read_alloc_of_lt hlt⟩
    · exact .inr ⟨rfl, hfree, Heap.read_alloc_size⟩

theorem Sound.step {r : Registry F} (h : Sound r) (call : Call F) :
    Sound ((registry F).step r call).1 := by
  rcases step_cases r call with
    ⟨name, help, labels, counters, c, -, hreg, heq⟩ | ⟨name, help, labels, gauges, g, -, hreg, heq⟩ |
    ⟨c, delta, heq⟩ | ⟨g, v, heq⟩ | ⟨p, heq⟩
  · rw [heq]
    refine ⟨h.counters.register hreg, h.gauges, fun c' hc' g hg => ?_⟩
    dsimp only at hc' ⊢
    rcases read_of_register hreg c' hc' with ⟨hlt, hread⟩ | ⟨-, hfree, hread⟩
    · rw [hread]
      exact h.disjoint c' hlt g hg
    · rw [hread]
      exact (h.gauges.name_ne hfree g hg).symm
  · rw [heq]
    refine ⟨h.counters, h.gauges.register hreg, fun c hc g' hg' => ?_⟩
    dsimp only at hg' ⊢
    rcases read_of_register hreg g' hg' with ⟨hlt, hread⟩ | ⟨-, hfree, hread⟩
    · rw [hread]
      exact h.disjoint c hc g' hlt
    · rw [hread]
      exact h.counters.name_ne hfree c hc
  · rw [heq]
    refine ⟨h.counters.write c _, h.gauges, fun c' hc' g hg => ?_⟩
    have hlt : c' < r.counters.cells.size := Heap.size_write ▸ hc'
    exact (series_write r.counters.cells c _ hlt).1 ▸ h.disjoint c' hlt g hg
  · rw [heq]
    refine ⟨h.counters, h.gauges.write g v, fun c hc g' hg' => ?_⟩
    have hlt : g' < r.gauges.cells.size := Heap.size_write ▸ hg'
    exact (series_write r.gauges.cells g v hlt).1 ▸ h.disjoint c hc g' hlt
  · rw [heq]
    exact h

theorem sound_after (calls : List (Call F)) : Sound (after calls) := by
  have hempty : ∀ {V : Type} [Inhabited V], (⟨∅, Heap.empty⟩ : Family V).Indexed := by
    intro V _
    refine ⟨?_, ?_, ?_, ?_⟩
    · intro key c hget
      cases hget
    all_goals
      intro c hc
      exact absurd hc (Nat.not_lt_zero c)
  refine (registry F).run_invariant (P := Sound) (Q := fun _ => True) ?_ ?_ calls fun _ _ => trivial
  · exact ⟨hempty, hempty, fun c hc => absurd hc (Nat.not_lt_zero c)⟩
  · intro r call _ h
    exact h.step call

end

end Otedama.Metrics
