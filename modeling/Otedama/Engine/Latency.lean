import Mathlib.Data.Rat.Floor
import Otedama.Framework.Median
import Otedama.Framework.RingBuffer

/-! # Latencies of submitted shares

`LatencyTracker` keeps the last round-trip times in a ring and reports
quantiles of them: it sorts a copy and takes the sample at the index
`int(q*n + 0.5) - 1`, clamped to the samples.

* What is retained is right: the latest samples, as many as the ring has
  cells (`retained_perm`).
* The index is the nearest rank rounded to the nearest integer. The
  nearest-rank quantile needs the rank rounded up. The two differ when
  `q*n` lies less than a half above an integer, and then the sample
  reported is one too low, unless its neighbour is equal
  (`quantile_isLeast_iff`).

Samples and quantiles are exact rationals. -/

namespace Otedama.Engine

open List Nat

/-! ## The tracker -/

structure LatencyTracker where
  samples : List ℚ
  next : Nat
  filled : Bool
  next_lt : next < samples.length

def newLatencyTracker (size : Int) : LatencyTracker where
  samples := List.replicate (if size < 1 then 256 else size.toNat) 0
  next := 0
  filled := false
  next_lt := by
    rw [List.length_replicate]
    split <;> omega

namespace LatencyTracker

def record (l : LatencyTracker) (ms : ℚ) : LatencyTracker :=
  if ms < 0 then l
  else
    { samples := l.samples.set l.next ms
      next := (l.next + 1) % l.samples.length
      filled := l.filled || (l.next + 1) % l.samples.length == 0
      next_lt := by
        rw [List.length_set]
        exact Nat.mod_lt _ (Nat.zero_lt_of_lt l.next_lt) }

/-- The conversion `int(x)`, which truncates. -/
def truncate (x : ℚ) : Int := if 0 ≤ x then ⌊x⌋ else ⌈x⌉

/-- How many samples there are. -/
def count (l : LatencyTracker) : Nat := if l.filled then l.samples.length else l.next

/-- The samples that `Quantile` copies. -/
def retained (l : LatencyTracker) : List ℚ := l.samples.take l.count

def quantile (l : LatencyTracker) (q : ℚ) : ℚ :=
  let n := l.count
  if n = 0 then 0
  else
    let cp := Median.sorted l.retained
    let idx := truncate (q * n + 1 / 2) - 1
    let idx := if idx < 0 then 0 else idx
    let idx := if idx ≥ n then (n : Int) - 1 else idx
    cp.getD idx.toNat 0

/-- The tracker after the calls of `Record`. -/
def after (size : Int) (calls : List ℚ) : LatencyTracker :=
  calls.foldl record (newLatencyTracker size)

/-! ## What is retained -/

def ring (l : LatencyTracker) : RingBuffer ℚ := ⟨l.samples, l.next, l.filled, l.next_lt⟩

theorem ring_record (l : LatencyTracker) {ms : ℚ} (h : 0 ≤ ms) :
    (l.record ms).ring = l.ring.push ms := by
  rw [record, if_neg (not_lt.mpr h)]
  rfl

/-- Negative values leave no trace in the ring. -/
theorem ring_foldl_record (calls : List ℚ) (l : LatencyTracker) :
    (calls.foldl record l).ring = (calls.filter (0 ≤ ·)).foldl RingBuffer.push l.ring := by
  induction calls generalizing l with
  | nil => rfl
  | cons ms calls ih =>
    rw [foldl_cons, ih]
    by_cases h : 0 ≤ ms
    · rw [ring_record l h, filter_cons_of_pos (by simpa using h), foldl_cons]
    · rw [record, if_pos (not_le.mp h), filter_cons_of_neg (by simpa using h)]

theorem retained_eq_written (l : LatencyTracker) : l.retained = l.ring.written := by
  unfold retained count RingBuffer.written
  show l.samples.take (if l.filled then l.samples.length else l.next) =
    if l.filled then l.samples else l.samples.take l.next
  split
  · exact take_length
  · rfl

theorem length_retained (l : LatencyTracker) : l.retained.length = l.count := by
  have hlt := l.next_lt
  rw [retained, length_take, count]
  split <;> omega

/-- The retained samples are the last of the non-negative values recorded, as
many of them as there are cells. -/
theorem retained_perm {size : Int} (hsize : 1 ≤ size) (calls : List ℚ) :
    (after size calls).retained.Perm
      ((calls.filter (0 ≤ ·)).drop ((calls.filter (0 ≤ ·)).length - size.toNat)) := by
  have hpos : 0 < size.toNat := by omega
  have hnew : (newLatencyTracker size).ring = RingBuffer.new size.toNat hpos 0 := by
    have hcells : (if size < 1 then 256 else size.toNat) = size.toNat := if_neg (by omega)
    unfold ring newLatencyTracker RingBuffer.new
    simp only [hcells]
  rw [retained_eq_written, after, ring_foldl_record, hnew, ← RingBuffer.contents_foldl_push hpos 0]
  exact RingBuffer.written_perm _

/-! ## The index -/

section

variable {l : LatencyTracker} {q : ℚ}

/-- With `q` in `(0, 1]` only the clamp from below is needed. -/
theorem quantile_eq (hq : 0 < q) (hq1 : q ≤ 1) (hn : 0 < l.count) :
    l.quantile q = (Median.sorted l.retained).getD (⌊q * l.count + 1 / 2⌋₊ - 1) 0 := by
  have hpos : 0 ≤ q * l.count + 1 / 2 := by positivity
  have hfloor : truncate (q * l.count + 1 / 2) = (⌊q * l.count + 1 / 2⌋₊ : Int) := by
    rw [truncate, if_pos hpos, Int.natCast_floor_eq_floor hpos]
  have hle : ⌊q * l.count + 1 / 2⌋₊ ≤ l.count := by
    have hcount : q * l.count ≤ l.count := mul_le_of_le_one_left (cast_nonneg _) hq1
    refine Nat.lt_succ_iff.mp ((Nat.floor_lt hpos).mpr ?_)
    push_cast
    linarith
  unfold quantile
  dsimp only
  rw [if_neg hn.ne', hfloor]
  congr 1
  split <;> split <;> omega

/-- The samples in order; `x` is the number of them that must not exceed the
quantile. -/
def RankRight (s : List ℚ) (x : ℚ) : Prop :=
  Int.fract x = 0 ∨ 1 / 2 ≤ Int.fract x ∨ x < 1 ∨ s.getD (⌊x⌋₊ - 1) 0 = s.getD ⌊x⌋₊ 0

/-- Rounding to the nearest integer and rounding up agree, or the first is one
less. -/
theorem rank_cases {x : ℚ} (hx : 0 < x) :
    ((Int.fract x = 0 ∨ 1 / 2 ≤ Int.fract x ∨ x < 1) ∧ ⌊x + 1 / 2⌋₊ - 1 = ⌈x⌉₊ - 1) ∨
    (¬ (Int.fract x = 0 ∨ 1 / 2 ≤ Int.fract x ∨ x < 1) ∧ ⌊x + 1 / 2⌋₊ = ⌊x⌋₊ ∧
      ⌈x⌉₊ - 1 = ⌊x⌋₊) := by
  have hfloor : (⌊x⌋₊ : ℚ) + Int.fract x = x := by
    have := Int.floor_add_fract x
    rwa [← Int.natCast_floor_eq_floor hx.le, Int.cast_natCast] at this
  have hfract := Int.fract_lt_one x
  have hnonneg := Int.fract_nonneg x
  have hround : ∀ m : Nat, (m : ℚ) ≤ x + 1 / 2 → x + 1 / 2 < m + 1 → ⌊x + 1 / 2⌋₊ = m := by
    intro m hlo hhi
    exact (floor_eq_iff (by positivity)).mpr ⟨hlo, hhi⟩
  by_cases hzero : Int.fract x = 0
  · refine .inl ⟨.inl hzero, ?_⟩
    have hx' : x = (⌊x⌋₊ : ℚ) := by linarith
    rw [hround ⌊x⌋₊ (by linarith) (by linarith)]
    conv_rhs => rw [hx', ceil_natCast]
  · have hfpos : 0 < Int.fract x := lt_of_le_of_ne hnonneg (Ne.symm hzero)
    have hceil : ⌈x⌉₊ = ⌊x⌋₊ + 1 := by
      refine (ceil_eq_iff (by omega)).mpr ⟨?_, ?_⟩
      · rw [Nat.add_sub_cancel]
        linarith
      · push_cast
        linarith
    by_cases hhalf : 1 / 2 ≤ Int.fract x
    · refine .inl ⟨.inr (.inl hhalf), ?_⟩
      rw [hceil, hround (⌊x⌋₊ + 1) (by push_cast; linarith) (by push_cast; linarith)]
    · have hdown : ⌊x + 1 / 2⌋₊ = ⌊x⌋₊ := hround _ (by linarith) (by linarith)
      by_cases hone : x < 1
      · refine .inl ⟨.inr (.inr hone), ?_⟩
        have hz : ⌊x⌋₊ = 0 := floor_eq_zero.mpr hone
        rw [hceil, hdown, hz]
      · refine .inr ⟨?_, hdown, by rw [hceil, Nat.add_sub_cancel]⟩
        exact not_or.mpr ⟨hzero, not_or.mpr ⟨hhalf, hone⟩⟩

/-- The quantile by the nearest rank. -/
theorem isLeast_rank {xs : List ℚ} {x : ℚ} (hx : 0 < x) (hle : x ≤ xs.length) :
    IsLeast {v | v ∈ xs ∧ x ≤ xs.countP (· ≤ v)} ((Median.sorted xs).getD (⌈x⌉₊ - 1) 0) := by
  have hpos : 0 < ⌈x⌉₊ := ceil_pos.mpr hx
  have hceil : ⌈x⌉₊ ≤ xs.length := ceil_le.mpr hle
  have hlen : ⌈x⌉₊ - 1 < (Median.sorted xs).length := by
    rw [Median.length_sorted]
    omega
  have hrank := Median.isLeast_getElem (Median.sorted_pairwise xs) hlen
  -- Sorting changes neither the members nor their counts.
  have hset : {v | v ∈ xs ∧ x ≤ xs.countP (· ≤ v)} =
      {v | v ∈ Median.sorted xs ∧ ⌈x⌉₊ - 1 + 1 ≤ (Median.sorted xs).countP (· ≤ v)} := by
    ext v
    rw [Set.mem_ofPred_eq, Set.mem_ofPred_eq, (Median.sorted_perm xs).mem_iff,
      (Median.sorted_perm xs).countP_eq, Nat.sub_add_cancel hpos, ceil_le]
  rw [hset, getD_eq_getElem _ _ hlen]
  exact hrank

/-- What the tracker reports is the quantile if and only if the rank is right. -/
theorem quantile_isLeast_iff (hq : 0 < q) (hq1 : q ≤ 1) (hn : 0 < l.count) :
    IsLeast {v | v ∈ l.retained ∧ q * l.count ≤ l.retained.countP (· ≤ v)} (l.quantile q) ↔
      RankRight (Median.sorted l.retained) (q * l.count) := by
  have hx : 0 < q * l.count := mul_pos hq (cast_pos.mpr hn)
  have hle : q * l.count ≤ l.retained.length := by
    rw [length_retained]
    exact mul_le_of_le_one_left (cast_nonneg _) hq1
  have hleast := isLeast_rank hx hle
  rw [quantile_eq hq hq1 hn]
  unfold RankRight
  rcases rank_cases hx with ⟨hgood, hsame⟩ | ⟨hbad, hdown, hup⟩
  · rw [hsame]
    refine iff_of_true hleast ?_
    rcases hgood with h | h | h
    · exact .inl h
    · exact .inr (.inl h)
    · exact .inr (.inr (.inl h))
  · rw [hdown]
    rw [hup] at hleast
    constructor
    · intro h
      exact .inr (.inr (.inr (h.unique hleast)))
    · intro h
      have heq : (Median.sorted l.retained).getD (⌊q * l.count⌋₊ - 1) 0 =
          (Median.sorted l.retained).getD ⌊q * l.count⌋₊ 0 := by
        rcases h with h | h | h | h
        · exact absurd (.inl h) hbad
        · exact absurd (.inr (.inl h)) hbad
        · exact absurd (.inr (.inr h)) hbad
        · exact h
      rw [heq]
      exact hleast

end

/-! ## The latencies reported -/

/-- **Quantiles of the latest samples, and when they are one rank too low.** -/
theorem latency_quantile_iff (size : Int) (hsize : 1 ≤ size) (calls : List ℚ) :
    (after size calls).retained.Perm
      ((calls.filter (0 ≤ ·)).drop ((calls.filter (0 ≤ ·)).length - size.toNat)) ∧
    ∀ q : ℚ, 0 < q → q ≤ 1 → 1 ≤ (after size calls).retained.length →
      (IsLeast {v | v ∈ (after size calls).retained ∧
          q * (after size calls).retained.length ≤ (after size calls).retained.countP (· ≤ v)}
        ((after size calls).quantile q) ↔
      RankRight (Median.sorted (after size calls).retained)
        (q * (after size calls).retained.length)) := by
  refine ⟨retained_perm hsize calls, ?_⟩
  intro q hq hq1 hn
  rw [length_retained] at hn ⊢
  exact quantile_isLeast_iff hq hq1 hn

/-- The median of a ring of two, which has dropped the first of three samples. -/
theorem median_of_two :
    IsLeast {v | v ∈ (after 2 [30, 10, -1, 20]).retained ∧
        (1 / 2 : ℚ) * (after 2 [30, 10, -1, 20]).retained.length ≤
          (after 2 [30, 10, -1, 20]).retained.countP (· ≤ v)}
      ((after 2 [30, 10, -1, 20]).quantile (1 / 2)) ∧
    (after 2 [30, 10, -1, 20]).quantile (1 / 2) = 10 := by
  refine ⟨((latency_quantile_iff 2 (by decide) [30, 10, -1, 20]).2 (1 / 2) (by decide +kernel)
    (by decide +kernel) (by decide +kernel)).mpr (.inl ?_), by decide +kernel⟩
  decide +kernel

/-- Three tenths of four samples: the tracker reports the lowest, which only
one sample does not exceed, where 1.2 are asked for. -/
theorem lowest_of_four :
    (after 4 [10, 20, 30, 40]).retained = [10, 20, 30, 40] ∧
    (after 4 [10, 20, 30, 40]).quantile (3 / 10) = 10 ∧
    ¬ IsLeast {v | v ∈ (after 4 [10, 20, 30, 40]).retained ∧
        (3 / 10 : ℚ) * (after 4 [10, 20, 30, 40]).retained.length ≤
          (after 4 [10, 20, 30, 40]).retained.countP (· ≤ v)}
      ((after 4 [10, 20, 30, 40]).quantile (3 / 10)) := by
  refine ⟨by decide +kernel, by decide +kernel, fun h => ?_⟩
  have hcount := h.1.2
  revert hcount
  decide +kernel

end LatencyTracker

end Otedama.Engine
