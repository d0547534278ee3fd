import Mathlib.Algebra.Order.Field.Basic
import Mathlib.Data.List.Sort

/-! # Ranking with hysteresis

Choosing one of several scored candidates, with an incumbent.

* `rank` sorts by descending score; candidates with equal scores are
  sorted by key. Where keys differ the ranking is a function of the set
  of candidates, not of the order in which they are listed.
* `Chosen` says which candidate to take when an incumbent stays unless the
  best one beats it by a margin. The choice is unique, near-optimal, and
  a fixed point: what has been chosen once is chosen again. -/

namespace Ranking

open List

variable {α κ K : Type*} [LinearOrder κ] [LinearOrder K]

/-! ## The order -/

section

variable (key : α → κ) (score : α → K)

/-- `a` goes before `b`: it has the higher score, or the same score and no
larger key. -/
def Before (a b : α) : Prop :=
  score b < score a ∨ score a = score b ∧ key a ≤ key b

instance : DecidableRel (Before key score) :=
  fun a b => inferInstanceAs (Decidable (score b < score a ∨ score a = score b ∧ key a ≤ key b))

instance : Std.Total (Before key score) where
  total a b := by
    unfold Before
    rcases lt_trichotomy (score a) (score b) with hlt | heq | hgt
    · exact .inr (.inl hlt)
    · rcases le_total (key a) (key b) with hkey | hkey
      · exact .inl (.inr ⟨heq, hkey⟩)
      · exact .inr (.inr ⟨heq.symm, hkey⟩)
    · exact .inl (.inl hgt)

instance : IsTrans α (Before key score) where
  trans a b c := by
    unfold Before
    rintro (hab | ⟨hab, hkab⟩) (hbc | ⟨hbc, hkbc⟩)
    · exact .inl (hbc.trans hab)
    · exact .inl (hbc ▸ hab)
    · exact .inl (hab ▸ hbc)
    · exact .inr ⟨hab.trans hbc, hkab.trans hkbc⟩

/-- The candidates, best first. -/
def rank (cands : List α) : List α := cands.insertionSort (Before key score)

end

variable {key : α → κ} {score : α → K} {a b c : α} {cands cands' : List α}

theorem Before.score_le (h : Before key score a b) : score b ≤ score a := by
  rcases h with hlt | ⟨heq, -⟩
  · exact hlt.le
  · exact heq.ge

theorem Before.key_eq (h : Before key score a b) (h' : Before key score b a) : key a = key b := by
  have heq : score a = score b := le_antisymm h'.score_le h.score_le
  rcases h with hlt | ⟨-, hab⟩
  · exact absurd heq.symm hlt.ne
  · rcases h' with hlt | ⟨-, hba⟩
    · exact absurd heq hlt.ne
    · exact le_antisymm hab hba

@[simp] theorem mem_rank : c ∈ rank key score cands ↔ c ∈ cands :=
  mem_insertionSort _

variable (key score) in
theorem rank_perm (cands : List α) : (rank key score cands).Perm cands :=
  List.perm_insertionSort _ cands

variable (key score) in
theorem rank_pairwise (cands : List α) :
    (rank key score cands).Pairwise (Before key score) :=
  List.pairwise_insertionSort _ cands

@[simp] theorem rank_eq_nil : rank key score cands = [] ↔ cands = [] := by
  constructor
  · intro h
    have hperm := rank_perm key score cands
    rw [h] at hperm
    exact hperm.symm.eq_nil
  · rintro rfl
    rfl

/-- The ranking does not depend on how the candidates are listed. -/
theorem rank_eq_of_perm (hkeys : (cands.map key).Nodup) (hperm : cands.Perm cands') :
    rank key score cands = rank key score cands' := by
  have hperm' : (rank key score cands).Perm (rank key score cands') :=
    (rank_perm key score cands).trans (hperm.trans (rank_perm key score cands').symm)
  refine hperm'.eq_of_pairwise ?_ (rank_pairwise key score cands) (rank_pairwise key score cands')
  intro a b ha hb hab hba
  have hb' : b ∈ cands := hperm.mem_iff.mpr (mem_rank.mp hb)
  exact inj_on_of_nodup_map hkeys (mem_rank.mp ha) hb' (hab.key_eq hba)

/-- The first of the ranking goes before every candidate. -/
theorem before_of_rank_eq_cons {best : α} {rest : List α}
    (h : rank key score cands = best :: rest) :
    best ∈ cands ∧ ∀ c ∈ cands, Before key score best c := by
  have hsorted := rank_pairwise key score cands
  rw [h] at hsorted
  refine ⟨mem_rank.mp (h ▸ mem_cons_self), fun c hc => ?_⟩
  have hmem : c ∈ best :: rest := h ▸ mem_rank.mpr hc
  rcases mem_cons.mp hmem with rfl | hrest
  · exact (or_self_iff.mp (Std.Total.total c c))
  · exact (pairwise_cons.mp hsorted).1 c hrest

/-! ## Hysteresis -/

section

variable [Field K] {h : K} {prev : κ}

variable (score) in
/-- No candidate beats `c` by more than the margin `h`. -/
def Defends (cands : List α) (h : K) (c : α) : Prop :=
  ∀ c' ∈ cands, score c' ≤ score c * (1 + h)

variable (key score) in
/-- The choice among `cands` when `prev` is the key of the incumbent: the
incumbent if it is still a candidate and defends itself, and otherwise the
best candidate. -/
inductive Chosen (cands : List α) (h : K) (prev : κ) (c : α) : Prop where
  | kept (hmem : c ∈ cands) (hkey : key c = prev) (hdefends : Defends score cands h c)
  | best (hmem : c ∈ cands) (hbest : ∀ c' ∈ cands, Before key score c c')
      (hbeaten : ∀ inc ∈ cands, key inc = prev → ¬ Defends score cands h inc)

/-- The best candidate defends itself. -/
theorem defends_of_best [IsStrictOrderedRing K] (hh : 0 ≤ h) (hscore : 0 ≤ score c)
    (hbest : ∀ c' ∈ cands, Before key score c c') : Defends score cands h c := by
  intro c' hc'
  have hle : score c' ≤ score c := (hbest c' hc').score_le
  have hgrow : score c ≤ score c * (1 + h) := 
    le_mul_of_one_le_right hscore (le_add_of_nonneg_right hh)
  exact hle.trans hgrow

theorem Chosen.mem (hc : Chosen key score cands h prev c) : c ∈ cands := by
  cases hc with
  | kept hmem => exact hmem
  | best hmem => exact hmem

/-- What is chosen is optimal up to the margin. -/
theorem Chosen.defends [IsStrictOrderedRing K] (hh : 0 ≤ h)
    (hscores : ∀ c ∈ cands, 0 ≤ score c) (hc : Chosen key score cands h prev c) :
    Defends score cands h c := by
  cases hc with
  | kept _ _ hdefends => exact hdefends
  | best hmem hbest => exact defends_of_best hh (hscores c hmem) hbest

/-- A change of incumbent is to the best candidate, which beats the old one by
more than the margin. -/
theorem Chosen.of_ne (hc : Chosen key score cands h prev c) (hne : key c ≠ prev) :
    (∀ c' ∈ cands, score c' ≤ score c) ∧
      ∀ inc ∈ cands, key inc = prev → score inc * (1 + h) < score c := by
  cases hc with
  | kept _ hkey => exact absurd hkey hne
  | best hmem hbest hbeaten =>
    refine ⟨fun c' hc' => (hbest c' hc').score_le, fun inc hinc hkey => ?_⟩
    by_contra hle
    apply hbeaten inc hinc hkey
    intro c' hc'
    exact (hbest c' hc').score_le.trans (not_lt.mp hle)

/-- What has been chosen once is chosen again. -/
theorem Chosen.again [IsStrictOrderedRing K] (hh : 0 ≤ h)
    (hscores : ∀ c ∈ cands, 0 ≤ score c) (hc : Chosen key score cands h prev c) :
    Chosen key score cands h (key c) c :=
  .kept hc.mem rfl (hc.defends hh hscores)

/-- There is only one choice. -/
theorem Chosen.unique (hkeys : (cands.map key).Nodup) {c' : α}
    (hc : Chosen key score cands h prev c) (hc' : Chosen key score cands h prev c') : c = c' := by
  cases hc with
  | kept hmem hkey hdefends =>
    cases hc' with
    | kept hmem' hkey' => exact inj_on_of_nodup_map hkeys hmem hmem' (hkey.trans hkey'.symm)
    | best _ _ hbeaten => exact absurd hdefends (hbeaten c hmem hkey)
  | best hmem hbest hbeaten =>
    cases hc' with
    | kept hmem' hkey' hdefends' => exact absurd hdefends' (hbeaten c' hmem' hkey')
    | best hmem' hbest' =>
      exact inj_on_of_nodup_map hkeys hmem hmem' ((hbest c' hmem').key_eq (hbest' c hmem))

end

end Ranking
