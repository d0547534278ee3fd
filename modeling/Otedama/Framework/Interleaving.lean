import Mathlib.Data.List.Basic

/-! # Interleavings

A sequence is an interleaving of others if its elements can be marked
with the sequence they come from such that those with the same mark are
that sequence, in its order. -/

namespace Interleaving

variable {ι α : Type*} [DecidableEq ι]

/-- The elements marked with `i`. -/
def marked (i : ι) (xs : List (ι × α)) : List α := (xs.filter fun x => x.1 = i).map Prod.snd

theorem marked_append (i : ι) (xs ys : List (ι × α)) :
    marked i (xs ++ ys) = marked i xs ++ marked i ys := by
  simp [marked]

theorem marked_concat_self (i : ι) (xs : List (ι × α)) (v : α) :
    marked i (xs ++ [(i, v)]) = marked i xs ++ [v] := by
  simp [marked]

theorem marked_concat_ne {i j : ι} (h : j ≠ i) (xs : List (ι × α)) (v : α) :
    marked i (xs ++ [(j, v)]) = marked i xs := by
  simp [marked, h]

/-- Every element of each of the sequences occurs once, in order. -/
def Interleaves (seqs : ι → List α) (xs : List α) : Prop :=
  ∃ ms : List (ι × α), ms.map Prod.snd = xs ∧ ∀ i, marked i ms = seqs i

/-- An interleaving of a prefix of each of the sequences. -/
def InterleavesPrefixes (seqs : ι → List α) (xs : List α) : Prop :=
  ∃ ms : List (ι × α), ms.map Prod.snd = xs ∧ ∀ i, marked i ms <+: seqs i

/-- What comes first in an interleaving of prefixes is one. -/
theorem InterleavesPrefixes.left {seqs : ι → List α} {xs ys : List α}
    (h : InterleavesPrefixes seqs (xs ++ ys)) : InterleavesPrefixes seqs xs := by
  obtain ⟨ms, hms, hseqs⟩ := h
  obtain ⟨ms₁, ms₂, rfl, h₁, -⟩ := List.map_eq_append_iff.mp hms
  refine ⟨ms₁, h₁, fun i => (List.prefix_append _ (marked i ms₂)).trans ?_⟩
  rw [← marked_append]
  exact hseqs i

end Interleaving
