import Otedama.Framework.CaseMapping
import Otedama.Framework.Median

/-! # Floats with special values

A float is an exact rational, an infinity or not a number. Rounding is
left out; what is kept is what makes floats unlike numbers:

* comparisons follow IEEE 754: every ordered comparison with `nan` is
  false, so `¬ (x < y)` does not say `y ≤ x`;
* `nan` spreads through every operation;
* `slices.Sort` puts it first;
* `strconv.ParseFloat` reads it from the text `nan`, in any case.

There is one zero and one `nan`. -/

inductive GoFloat where
  | nan
  | posInf
  | negInf
  | fin (q : ℚ)
  deriving DecidableEq, Repr

namespace GoFloat

/-! ## Comparisons -/

/-- `x < y` -/
def less : GoFloat → GoFloat → Bool
  | nan, _ => false
  | _, nan => false
  | negInf, negInf => false
  | negInf, _ => true
  | posInf, _ => false
  | fin _, negInf => false
  | fin _, posInf => true
  | fin a, fin b => a < b

instance : LT GoFloat := ⟨fun x y => less x y = true⟩

instance (x y : GoFloat) : Decidable (x < y) := inferInstanceAs (Decidable (less x y = true))

/-- `x ≤ y`: not the negation of `y < x`. -/
instance : LE GoFloat := ⟨fun x y => x < y ∨ x = y ∧ x ≠ nan⟩

instance (x y : GoFloat) : Decidable (x ≤ y) :=
  inferInstanceAs (Decidable (x < y ∨ x = y ∧ x ≠ nan))

theorem lt_def (x y : GoFloat) : x < y ↔ less x y = true := Iff.rfl

theorem le_def (x y : GoFloat) : x ≤ y ↔ x < y ∨ x = y ∧ x ≠ nan := Iff.rfl

@[simp] theorem not_nan_lt (x : GoFloat) : ¬ nan < x := by simp [lt_def, less]

@[simp] theorem not_lt_nan (x : GoFloat) : ¬ x < nan := by
  cases x with
  | nan => simp
  | posInf => simp [lt_def, less]
  | negInf => simp [lt_def, less]
  | fin q => simp [lt_def, less]

@[simp] theorem not_nan_le (x : GoFloat) : ¬ nan ≤ x := by simp [le_def]

@[simp] theorem fin_lt_fin (a b : ℚ) : fin a < fin b ↔ a < b := by simp [lt_def, less]

@[simp] theorem fin_le_fin (a b : ℚ) : fin a ≤ fin b ↔ a ≤ b := by
  simp [le_def, le_iff_lt_or_eq]

@[simp] theorem fin_lt_posInf (a : ℚ) : fin a < posInf := by simp [lt_def, less]

@[simp] theorem negInf_lt_fin (a : ℚ) : negInf < fin a := by simp [lt_def, less]

/-! ## Arithmetic -/

/-- The infinity with the sign of `q`; infinity times zero is undefined. -/
def signedInf (q : ℚ) : GoFloat :=
  if 0 < q then posInf else if q < 0 then negInf else nan

def add : GoFloat → GoFloat → GoFloat
  | nan, _ => nan
  | _, nan => nan
  | posInf, negInf => nan
  | negInf, posInf => nan
  | posInf, _ => posInf
  | _, posInf => posInf
  | negInf, _ => negInf
  | _, negInf => negInf
  | fin a, fin b => fin (a + b)

def mul : GoFloat → GoFloat → GoFloat
  | nan, _ => nan
  | _, nan => nan
  | posInf, posInf => posInf
  | posInf, negInf => negInf
  | negInf, posInf => negInf
  | negInf, negInf => posInf
  | posInf, fin b => signedInf b
  | negInf, fin b => signedInf (-b)
  | fin a, posInf => signedInf a
  | fin a, negInf => signedInf (-a)
  | fin a, fin b => fin (a * b)

/-- Division by zero gives an infinity, except for `0 / 0`; an infinity
divided by zero stays one. -/
def div : GoFloat → GoFloat → GoFloat
  | nan, _ => nan
  | _, nan => nan
  | posInf, fin b => if b = 0 then posInf else signedInf b
  | negInf, fin b => if b = 0 then negInf else signedInf (-b)
  | posInf, _ => nan
  | negInf, _ => nan
  | fin _, posInf => fin 0
  | fin _, negInf => fin 0
  | fin a, fin b => if b = 0 then signedInf a else fin (a / b)

instance : Zero GoFloat := ⟨fin 0⟩

instance (n : Nat) : OfNat GoFloat n := ⟨fin n⟩

instance : Add GoFloat := ⟨add⟩

instance : Mul GoFloat := ⟨mul⟩

instance : Div GoFloat := ⟨div⟩

@[simp] theorem nan_add (x : GoFloat) : nan + x = nan := by
  show add nan x = nan
  simp [add]

@[simp] theorem add_nan (x : GoFloat) : x + nan = nan := by
  show add x nan = nan
  cases x <;> simp [add]

@[simp] theorem nan_mul (x : GoFloat) : nan * x = nan := by
  show mul nan x = nan
  simp [mul]

@[simp] theorem nan_div (x : GoFloat) : nan / x = nan := by
  show div nan x = nan
  simp [div]

@[simp] theorem fin_add_fin (a b : ℚ) : fin a + fin b = fin (a + b) := rfl

@[simp] theorem fin_mul_fin (a b : ℚ) : fin a * fin b = fin (a * b) := rfl

/-- A positive factor makes nothing undefined. -/
theorem mul_fin_eq_nan {b : ℚ} (hb : 0 < b) (x : GoFloat) : x * fin b = nan ↔ x = nan := by
  cases x with
  | nan => simp
  | posInf =>
    show signedInf b = nan ↔ _
    simp [signedInf, hb]
  | negInf =>
    show signedInf (-b) = nan ↔ _
    simp [signedInf, hb, hb.not_gt]
  | fin a => simp

@[simp] theorem fin_div_two (a : ℚ) : fin a / 2 = fin (a / 2) := by
  show div (fin a) (fin (2 : Nat)) = fin (a / 2)
  simp [div]

/-! ## Sorting and medians -/

/-- The order of `slices.Sort`: `nan` before everything else. -/
def cmpLess (x y : GoFloat) : Prop := x = nan ∧ y ≠ nan ∨ x < y

instance (x y : GoFloat) : Decidable (cmpLess x y) :=
  inferInstanceAs (Decidable (x = nan ∧ y ≠ nan ∨ x < y))

/-- `slices.Sort` -/
def sort (xs : List GoFloat) : List GoFloat := xs.insertionSort fun x y => ¬ cmpLess y x

theorem sort_perm (xs : List GoFloat) : (sort xs).Perm xs := List.perm_insertionSort _ xs

open Median in
/-- Of at most two floats, one of which is not a number, the median is not a
number. -/
theorem middle_eq_nan {s : List GoFloat} (hlen : s.length ≤ 2) (h : nan ∈ s) : middle s = nan := by
  cases s with
  | nil => simp at h
  | cons x s =>
    cases s with
    | nil =>
      obtain rfl : nan = x := by simpa using h
      rfl
    | cons y s =>
      obtain rfl : s = [] := by
        rw [← List.length_eq_zero_iff]
        simp only [List.length_cons] at hlen
        omega
      have hmid : middle [x, y] = (x + y) / 2 := by simp [middle]
      rw [hmid]
      simp only [List.mem_cons, List.not_mem_nil, or_false] at h
      rcases h with h | h
      · rw [← h, nan_add, nan_div]
      · rw [← h, add_nan, nan_div]

open Median in
/-- The median of rationals from an interval is a rational from it, also if
the list is not sorted. -/
theorem middle_eq_fin {s : List GoFloat} {lo hi : ℚ} (hne : s ≠ [])
    (h : ∀ x ∈ s, ∃ q, x = fin q ∧ lo ≤ q ∧ q ≤ hi) : ∃ q, middle s = fin q ∧ lo ≤ q ∧ q ≤ hi := by
  have hpos : 0 < s.length := List.length_pos_iff.mpr hne
  have hget : ∀ i, i < s.length → ∃ q, s.getD i 0 = fin q ∧ lo ≤ q ∧ q ≤ hi := by
    intro i hi
    rw [List.getD_eq_getElem _ _ hi]
    exact h _ (List.getElem_mem hi)
  unfold middle
  split
  · exact hget _ (by omega)
  · obtain ⟨a, ha, hloa, hhia⟩ := hget (s.length / 2 - 1) (by omega)
    obtain ⟨b, hb, hlob, hhib⟩ := hget (s.length / 2) (by omega)
    refine ⟨(a + b) / 2, by rw [ha, hb, fin_add_fin, fin_div_two], ?_, ?_⟩
    · linarith
    · linarith

/-! ## Reading floats -/

/-- Why `strconv.ParseFloat` fails. -/
inductive ParseError where
  /-- `invalid syntax` -/
  | invalid
  /-- `value out of range` -/
  | range
  deriving DecidableEq, Repr

/-- An ASCII letter in lower case. -/
def lowerByte (b : UInt8) : UInt8 := if 65 ≤ b ∧ b ≤ 90 then b + 32 else b

open GoString in
/-- The texts that stand for infinity, after the sign. -/
def isInfinity (s : GoString) : Bool :=
  s = text ['i', 'n', 'f'] ∨ s = text ['i', 'n', 'f', 'i', 'n', 'i', 't', 'y']

open GoString in
/-- The special values, in any case; `nan` has no sign. -/
def special (s : GoString) : Option GoFloat :=
  let t := s.map lowerByte
  if t = text ['n', 'a', 'n'] then some nan
  else if isInfinity t then some posInf
  else match t with
    | [] => none
    | b :: t =>
      if b = asciiByte '+' ∧ isInfinity t then some posInf
      else if b = asciiByte '-' ∧ isInfinity t then some negInf
      else none

/-- `strconv.ParseFloat`, where `number` reads the texts of finite numbers. -/
def parseFloat (number : GoString → Except ParseError ℚ) (s : GoString) :
    Except ParseError GoFloat :=
  match special s with
  | some x => .ok x
  | none => fin <$> number s

open GoString in
/-- The text reads as `nan`. -/
def SpellsNaN (s : GoString) : Prop := s.map lowerByte = text ['n', 'a', 'n']

open GoString in
instance (s : GoString) : Decidable (SpellsNaN s) :=
  inferInstanceAs (Decidable (s.map lowerByte = text ['n', 'a', 'n']))

theorem special_eq_nan (s : GoString) : special s = some nan ↔ SpellsNaN s := by
  unfold special SpellsNaN
  by_cases hnan : s.map lowerByte = GoString.text ['n', 'a', 'n']
  · simp [hnan]
  · -- Every other special value is an infinity.
    refine iff_of_false ?_ hnan
    dsimp only
    rw [if_neg hnan]
    split
    · simp
    · split
      · simp
      · split
        · simp
        · split
          · simp
          · simp

/-- Only the text `nan` reads as `nan`. -/
theorem parseFloat_eq_nan (number : GoString → Except ParseError ℚ) (s : GoString) :
    parseFloat number s = .ok nan ↔ SpellsNaN s := by
  rw [← special_eq_nan]
  unfold parseFloat
  cases hs : special s with
  | some x => simp
  | none =>
    cases hnum : number s with
    | error e => simp [Functor.map, Except.map]
    | ok q => simp [Functor.map, Except.map]

end GoFloat
