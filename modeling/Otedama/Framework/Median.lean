import Mathlib.Algebra.Order.Field.Basic
import Mathlib.Data.List.GetD
import Mathlib.Data.List.Sort
import Mathlib.Tactic.Linarith

/-! # Medians

The median of a list as programs compute it: sort, then take the middle
entry, or the mean of the two middle entries when their number is even.

The result that makes the median worth its sorting is `middle_mem`: as
long as fewer than half of the entries lie outside an interval, the
median lies inside it, whatever the others are. In a sorted list the
entries below a threshold come first, so an index at or beyond their
number holds an entry that is not below it; likewise from above. Both
parities need no more than this. -/

namespace Median

open List

/-! ## Computing the median -/

section

variable {α : Type*} [Zero α] [Add α] [Div α] [OfNat α 2]

/-- The median of a sorted list. -/
def middle (s : List α) : α :=
  if s.length % 2 = 1 then s.getD (s.length / 2) 0
  else (s.getD (s.length / 2 - 1) 0 + s.getD (s.length / 2) 0) / 2

end

section

variable {α : Type*} [LinearOrder α] {xs ys s : List α} {lo hi : α} {i : Nat}

/-- The entries in ascending order. -/
def sorted (xs : List α) : List α := xs.insertionSort (· ≤ ·)

theorem sorted_perm (xs : List α) : (sorted xs).Perm xs := perm_insertionSort _ xs

theorem sorted_pairwise (xs : List α) : (sorted xs).Pairwise (· ≤ ·) :=
  pairwise_insertionSort _ xs

@[simp] theorem length_sorted (xs : List α) : (sorted xs).length = xs.length :=
  (sorted_perm xs).length_eq

/-- Sorting forgets the order of the entries. -/
theorem sorted_congr (h : xs.Perm ys) : sorted xs = sorted ys := by
  have hperm : (sorted xs).Perm (sorted ys) :=
    (sorted_perm xs).trans (h.trans (sorted_perm ys).symm)
  exact hperm.eq_of_pairwise (fun a b _ _ => le_antisymm) (sorted_pairwise xs) (sorted_pairwise ys)

/-! ## Thresholds in a sorted list -/

section

variable (hs : s.Pairwise (· ≤ ·)) (hlen : i < s.length)

include hs hlen

/-- At least `i + 1` entries are not above the one at index `i`. -/
theorem succ_le_countP : i + 1 ≤ s.countP (· ≤ s[i]) := by
  have hall : ∀ x ∈ s.take (i + 1), decide (x ≤ s[i]) = true := by
    intro x hx
    obtain ⟨j, hj, rfl⟩ := mem_take_iff_getElem.mp hx
    rcases Nat.lt_or_ge j i with hlt | hge
    · exact decide_eq_true (pairwise_iff_getElem.mp hs j i _ _ hlt)
    · have heq : j = i := by omega
      subst heq
      exact decide_eq_true (le_refl _)
  have hcount := (take_sublist (i + 1) s).countP_le (p := (· ≤ s[i]))
  rwa [countP_eq_length.mpr hall, length_take_of_le hlen] at hcount

/-- An index at or beyond the number of entries below `lo` holds an entry
that is not below it. -/
theorem le_getElem_of_countP (hc : s.countP (· < lo) ≤ i) : lo ≤ s[i] := by
  by_contra hnot
  -- Otherwise the entries that are not above `s[i]` are all below `lo`.
  have hmono : s.countP (· ≤ s[i]) ≤ s.countP (· < lo) := by
    refine countP_mono_left fun x _ hx => ?_
    exact decide_eq_true (lt_of_le_of_lt (of_decide_eq_true hx) (not_le.mp hnot))
  have hcount := succ_le_countP hs hlen
  omega

/-- An index that leaves at least as many entries behind it as lie above `hi`
holds an entry that is not above it. -/
theorem getElem_le_of_countP (hc : s.countP (hi < ·) + i < s.length) : s[i] ≤ hi := by
  by_contra hnot
  -- Otherwise all entries from index `i` on are above `hi`.
  have hall : ∀ x ∈ s.drop i, decide (hi < x) = true := by
    intro x hx
    obtain ⟨j, hj, rfl⟩ := mem_drop_iff_getElem.mp hx
    have hle : s[i] ≤ s[i + j] := by
      rcases Nat.eq_zero_or_pos j with rfl | hpos
      · exact le_refl _
      · exact pairwise_iff_getElem.mp hs i (i + j) _ _ (by omega)
    exact decide_eq_true (lt_of_lt_of_le (not_le.mp hnot) hle)
  have hcount := (drop_sublist i s).countP_le (p := (hi < ·))
  rw [countP_eq_length.mpr hall, length_drop] at hcount
  omega

end

/-- When fewer than `k` entries lie outside an interval, the entries at the
indices from `k - 1` to the `k`-th last lie inside it. -/
theorem getElem_mem_of_countP {k : Nat} (hs : s.Pairwise (· ≤ ·)) (hlen : i < s.length)
    (hc : s.countP (fun x => x < lo ∨ hi < x) < k) (hlo : k ≤ i + 1) (hhi : i + k ≤ s.length) :
    lo ≤ s[i] ∧ s[i] ≤ hi := by
  have hbelow : s.countP (· < lo) ≤ s.countP (fun x => x < lo ∨ hi < x) :=
    countP_mono_left fun x _ hx => by simp_all
  have habove : s.countP (hi < ·) ≤ s.countP (fun x => x < lo ∨ hi < x) :=
    countP_mono_left fun x _ hx => by simp_all
  exact ⟨le_getElem_of_countP hs hlen (by omega), getElem_le_of_countP hs hlen (by omega)⟩

/-- **Nearest rank.** The entry at index `i` of a sorted list is the smallest
one that at least `i + 1` entries do not exceed. -/
theorem isLeast_getElem (hs : s.Pairwise (· ≤ ·)) (hlen : i < s.length) :
    IsLeast {v | v ∈ s ∧ i + 1 ≤ s.countP (· ≤ v)} s[i] := by
  refine ⟨⟨getElem_mem hlen, succ_le_countP hs hlen⟩, ?_⟩
  intro v hv
  have hsplit := s.length_eq_countP_add_countP (p := fun x => decide (x ≤ v))
  have habove : s.countP (fun x => decide (v < x)) =
      s.countP (fun x => decide ¬ decide (x ≤ v) = true) := by
    simp [not_le]
  have hcount := hv.2
  exact getElem_le_of_countP hs hlen (by omega)

end

/-! ## The median resists a minority -/

section

variable {K : Type*} [Field K] [LinearOrder K] [IsStrictOrderedRing K] {s : List K} {lo hi : K}

/-- **Robustness.** If fewer than half of the entries of a sorted list lie
outside an interval, its median lies inside. -/
theorem middle_mem (hs : s.Pairwise (· ≤ ·))
    (hc : 2 * s.countP (fun x => x < lo ∨ hi < x) < s.length) : lo ≤ middle s ∧ middle s ≤ hi := by
  -- Every index between the two middle ones is safe.
  have hmid : ∀ i (k : Nat), s.countP (fun x => x < lo ∨ hi < x) < k → k ≤ i + 1 →
      i + k ≤ s.length → lo ≤ s.getD i 0 ∧ s.getD i 0 ≤ hi := by
    intro i k hk hlow hhigh
    have hlen : i < s.length := by omega
    rw [getD_eq_getElem _ _ hlen]
    exact getElem_mem_of_countP hs hlen hk hlow hhigh
  unfold middle
  rcases Nat.mod_two_eq_zero_or_one s.length with heven | hodd
  · -- With `2 * k` entries, at most `k - 1` lie outside.
    have hlow := hmid (s.length / 2 - 1) (s.length / 2) (by omega) (by omega) (by omega)
    have hhigh := hmid (s.length / 2) (s.length / 2) (by omega) (by omega) (by omega)
    rw [if_neg (by omega)]
    constructor
    · rw [le_div_iff₀ two_pos]
      linarith [hlow.1, hhigh.1]
    · rw [div_le_iff₀ two_pos]
      linarith [hlow.2, hhigh.2]
  · rw [if_pos hodd]
    exact hmid (s.length / 2) (s.length / 2 + 1) (by omega) (by omega) (by omega)

/-- The median lies in every interval that holds all entries. -/
theorem middle_mem_of_forall (hs : s.Pairwise (· ≤ ·)) (hne : s ≠ [])
    (h : ∀ x ∈ s, lo ≤ x ∧ x ≤ hi) : lo ≤ middle s ∧ middle s ≤ hi := by
  refine middle_mem hs ?_
  have hnone : s.countP (fun x => x < lo ∨ hi < x) = 0 := by
    rw [countP_eq_zero]
    intro x hx
    obtain ⟨hlo, hhi⟩ := h x hx
    simp [hlo, hhi]
  rw [hnone]
  exact length_pos_iff.mpr hne

end

end Median
