import Mathlib.Data.List.Basic

/-! # Merkle trees

A tree is given by its leaves and computed level by level: neighbours are
joined, and a last node without a neighbour is joined with itself. The
level with a single node holds the root. The leaf on the far left is
joined with the second node of each level on its way up. -/

namespace MerkleTree

open List

variable {α : Type*} (node : α → α → α)

/-- The level above a level. -/
def parents : List α → List α
  | a :: b :: level => node a b :: parents level
  | [a] => [node a a]
  | [] => []

theorem length_parents (level : List α) : (parents node level).length = (level.length + 1) / 2 := by
  induction level using parents.induct with
  | case1 a b level ih =>
    rw [parents, length_cons, ih, length_cons, length_cons]
    omega
  | case2 a => rw [parents, length_singleton, length_singleton]
  | case3 => rw [parents, length_nil]

/-- The root of the tree over the leaves, which has one unless it is empty. -/
def root : List α → Option α
  | [] => none
  | [a] => some a
  | a :: b :: level => root (parents node (a :: b :: level))
termination_by leaves => leaves.length
decreasing_by
  rw [length_parents, List.length_cons, List.length_cons]
  omega

/-- The siblings on the path from the leftmost leaf to the root. -/
def leftBranch : List α → List α
  | [] => []
  | [_] => []
  | a :: b :: level => b :: leftBranch (parents node (a :: b :: level))
termination_by leaves => leaves.length
decreasing_by
  rw [length_parents, List.length_cons, List.length_cons]
  omega

/-- Joining the leftmost leaf with its siblings, one after the other, arrives at
the root. -/
theorem root_eq_foldl_leftBranch (leaf : α) (others : List α) :
    root node (leaf :: others) = some ((leftBranch node (leaf :: others)).foldl node leaf) := by
  -- Induction on the width of the level; the leftmost node changes with it.
  induction hwidth : others.length using Nat.strongRecOn generalizing leaf others with
  | _ width ih =>
    cases others with
    | nil => rw [root, leftBranch, foldl_nil]
    | cons b level =>
      have hless : (parents node level).length < width := by
        rw [length_parents, ← hwidth, length_cons]
        omega
      rw [root, leftBranch, parents, foldl_cons]
      exact ih _ hless (node leaf b) (parents node level) rfl

end MerkleTree
