import Otedama.Framework.Utf8

/-! # Searching in Go strings

`strings.Index` and its relatives for single bytes, each with what the
position it returns says about the string, and the lines of a text. -/

namespace GoString

open List

/-- `strings.IndexByte`. -/
def indexByte (b : UInt8) : GoString → Option Nat
  | [] => none
  | x :: s => if x = b then some 0 else (indexByte b s).map (· + 1)

/-- `strings.LastIndexByte`. -/
def lastIndexByte (b : UInt8) : GoString → Option Nat
  | [] => none
  | x :: s =>
      match lastIndexByte b s with
      | some i => some (i + 1)
      | none => if x = b then some 0 else none

/-- `strings.Index`. -/
def index (sep : GoString) : GoString → Option Nat
  | [] => if sep = [] then some 0 else none
  | x :: s => if sep <+: x :: s then some 0 else (index sep s).map (· + 1)

section

variable {b : UInt8} {s : GoString}

theorem indexByte_eq_none : indexByte b s = none ↔ b ∉ s := by
  induction s with
  | nil => simp [indexByte]
  | cons x s ih =>
    by_cases hx : x = b
    · simp [indexByte, hx]
    · simp [indexByte, hx, ih, Ne.symm hx]

/-- The first occurrence is behind a string without the byte. -/
theorem indexByte_append (h : b ∉ s) (t : GoString) :
    indexByte b (s ++ b :: t) = some s.length := by
  induction s with
  | nil => simp [indexByte]
  | cons x s ih =>
    rw [mem_cons, not_or] at h
    rw [cons_append, indexByte, if_neg (Ne.symm h.1), ih h.2]
    rfl

theorem lastIndexByte_eq_none : lastIndexByte b s = none ↔ b ∉ s := by
  induction s with
  | nil => simp [lastIndexByte]
  | cons x s ih =>
    rw [lastIndexByte, mem_cons, not_or]
    cases hlast : lastIndexByte b s with
    | none =>
      have hs : b ∉ s := ih.mp hlast
      by_cases hx : x = b
      · simp [hx]
      · simp [hx, hs, Ne.symm hx]
    | some i =>
      have hs : ¬ b ∉ s := by
        intro h
        rw [ih.mpr h] at hlast
        cases hlast
      simp [hs]

theorem lastIndexByte_eq_some {i : Nat} :
    lastIndexByte b s = some i ↔ ∃ pre post, s = pre ++ b :: post ∧ pre.length = i ∧ b ∉ post := by
  induction s generalizing i with
  | nil => simp [lastIndexByte]
  | cons x s ih =>
    rw [lastIndexByte]
    constructor
    · intro h
      cases hlast : lastIndexByte b s with
      | none =>
        rw [hlast] at h
        by_cases hx : x = b
        · subst hx
          obtain rfl : 0 = i := by simpa using h
          exact ⟨[], s, rfl, rfl, lastIndexByte_eq_none.mp hlast⟩
        · simp [hx] at h
      | some j =>
        rw [hlast] at h
        obtain rfl : j + 1 = i := by simpa using h
        obtain ⟨pre, post, rfl, rfl, hpost⟩ := ih.mp hlast
        exact ⟨x :: pre, post, rfl, rfl, hpost⟩
    · rintro ⟨pre, post, heq, rfl, hpost⟩
      cases pre with
      | nil =>
        obtain ⟨rfl, rfl⟩ : x = b ∧ s = post := by simpa using heq
        rw [lastIndexByte_eq_none.mpr hpost]
        simp
      | cons y pre =>
        obtain ⟨rfl, rfl⟩ : x = y ∧ s = pre ++ b :: post := by simpa using heq
        rw [ih.mpr ⟨pre, post, rfl, rfl, hpost⟩]
        rfl

end

/-- The first occurrence of a separator, if none starts earlier. -/
theorem index_append {sep pre : GoString} (post : GoString)
    (h : ∀ i < pre.length, ¬ sep <+: (pre ++ (sep ++ post)).drop i) :
    index sep (pre ++ (sep ++ post)) = some pre.length := by
  induction pre with
  | nil =>
    rw [nil_append]
    cases sep with
    | nil => cases post <;> simp [index]
    | cons x sep =>
      rw [cons_append, index]
      exact if_pos ⟨post, rfl⟩
  | cons x pre ih =>
    have hhead : ¬ sep <+: x :: pre ++ (sep ++ post) := h 0 (Nat.succ_pos _)
    have htail := ih fun i hi => h (i + 1) (Nat.succ_lt_succ hi)
    rw [cons_append] at hhead ⊢
    rw [index, if_neg hhead, htail]
    rfl

/-! ## Joining -/

/-- `strings.Join` with a separator of one byte. -/
theorem intercalate_cons {sep : UInt8} {l : GoString} {ls : List GoString} (h : ls ≠ []) :
    [sep].intercalate (l :: ls) = l ++ sep :: [sep].intercalate ls := by
  rw [intercalate_cons_of_ne_nil h, append_assoc, singleton_append]

theorem notMem_intercalate {b sep : UInt8} (hsep : b ≠ sep) {ls : List GoString}
    (h : ∀ l ∈ ls, b ∉ l) : b ∉ [sep].intercalate ls := by
  induction ls with
  | nil => exact not_mem_nil
  | cons l ls ih =>
    obtain ⟨hl, hls⟩ := forall_mem_cons.mp h
    by_cases hlast : ls = []
    · subst hlast
      rwa [intercalate_singleton]
    · rw [intercalate_cons hlast, mem_append, mem_cons, not_or, not_or]
      exact ⟨hl, hsep, ih hls⟩

/-! ## Lines -/

def newline : UInt8 := 10

/-- The lines of a text, and what is behind the last newline. -/
def splitLines : GoString → List GoString × GoString
  | [] => ([], [])
  | b :: s =>
      if b = newline then ([] :: (splitLines s).1, (splitLines s).2)
      else
        match splitLines s with
        | ([], last) => ([], b :: last)
        | (line :: lines, last) => ((b :: line) :: lines, last)

theorem splitLines_line {line : GoString} (h : newline ∉ line) (s : GoString) :
    splitLines (line ++ newline :: s) = (line :: (splitLines s).1, (splitLines s).2) := by
  induction line with
  | nil =>
    rw [nil_append, splitLines, if_pos rfl]
  | cons b line ih =>
    rw [mem_cons, not_or] at h
    rw [cons_append, splitLines, if_neg (Ne.symm h.1), ih h.2]

/-- A text that is made of lines. -/
theorem splitLines_flatMap {lines : List GoString} (h : ∀ line ∈ lines, newline ∉ line) :
    splitLines (lines.flatMap fun line => line ++ [newline]) = (lines, []) := by
  induction lines with
  | nil => rfl
  | cons line lines ih =>
    rw [flatMap_cons, append_assoc, singleton_append,
      splitLines_line (h line mem_cons_self), ih fun x hx => h x (mem_cons_of_mem _ hx)]

end GoString
