import Mathlib.Data.List.Induction

/-! # Ring buffers

A list of cells that is written round and round: the next write goes to
the cell `next`, and `filled` is set once every cell has been written.

`contents` reads the cells from the oldest to the newest. A push appends
to it and drops the oldest value if the ring is full (`contents_push`), so
that after any pushes it is the tail end of what was pushed. -/

/-- A ring with at least one cell. -/
structure RingBuffer (α : Type*) where
  cells : List α
  next : Nat
  filled : Bool
  next_lt : next < cells.length

namespace RingBuffer

open List

variable {α : Type*}

/-- A ring of `n` cells that hold `a` until they are written. -/
def new (n : Nat) (hn : 0 < n) (a : α) : RingBuffer α where
  cells := List.replicate n a
  next := 0
  filled := false
  next_lt := by rwa [List.length_replicate]

def push (r : RingBuffer α) (v : α) : RingBuffer α where
  cells := r.cells.set r.next v
  next := (r.next + 1) % r.cells.length
  filled := r.filled || (r.next + 1) % r.cells.length == 0
  next_lt := by
    rw [List.length_set]
    exact Nat.mod_lt _ (Nat.zero_lt_of_lt r.next_lt)

/-- The cells that have been written. -/
def written (r : RingBuffer α) : List α := if r.filled then r.cells else r.cells.take r.next

/-- The values in the ring, the oldest first. -/
def contents (r : RingBuffer α) : List α :=
  if r.filled then r.cells.drop r.next ++ r.cells.take r.next else r.cells.take r.next

section

variable (r : RingBuffer α)

@[simp] theorem length_cells_push (v : α) :
    (r.push v).cells.length = r.cells.length := length_set

theorem written_perm : r.written.Perm r.contents := by
  unfold written contents
  split
  · have hswap : (r.cells.drop r.next ++ r.cells.take r.next).Perm r.cells := by
      refine perm_append_comm.trans ?_
      rw [take_append_drop]
    exact hswap.symm
  · exact List.Perm.refl _

theorem length_contents : r.contents.length = if r.filled then r.cells.length else r.next := by
  have hlt := r.next_lt
  unfold contents
  split
  · rw [length_append, length_drop, length_take]
    omega
  · rw [length_take]
    omega

/-- What is behind the cell written, and what is before it. -/
theorem take_set_next (v : α) :
    (r.cells.set r.next v).take (r.next + 1) = r.cells.take r.next ++ [v] := by
  rw [take_add_one, take_set_of_le (Nat.le_refl r.next), getElem?_set_self r.next_lt]
  rfl

theorem drop_set_next (v : α) :
    (r.cells.set r.next v).drop (r.next + 1) = (r.cells.drop r.next).tail := by
  rw [drop_set_of_lt (Nat.lt_succ_self _), tail_drop]

/-- One push. -/
theorem contents_push (v : α) :
    (r.push v).contents = if r.filled then r.contents.tail ++ [v] else r.contents ++ [v] := by
  have hlt := r.next_lt
  have hnil : r.cells.drop r.next ≠ [] := by
    rw [ne_eq, drop_eq_nil_iff]
    omega
  rcases Nat.lt_or_eq_of_le (Nat.succ_le_of_lt hlt) with hinner | hlast
  · -- The next write goes to the cell behind this one.
    have hnext : (r.next + 1) % r.cells.length = r.next + 1 := Nat.mod_eq_of_lt hinner
    have hfilled : (r.push v).filled = r.filled := by
      show (r.filled || (r.next + 1) % r.cells.length == 0) = r.filled
      rw [hnext]
      simp
    unfold contents
    rw [hfilled]
    show (if r.filled then (r.cells.set r.next v).drop ((r.next + 1) % r.cells.length) ++
        (r.cells.set r.next v).take ((r.next + 1) % r.cells.length)
      else (r.cells.set r.next v).take ((r.next + 1) % r.cells.length)) = _
    rw [hnext, take_set_next, drop_set_next]
    split
    · rw [tail_append_of_ne_nil hnil, append_assoc]
    · rfl
  · -- The ring is full now, and the next write goes to its first cell.
    have hnext : (r.next + 1) % r.cells.length = 0 := by
      rw [← hlast]
      exact Nat.mod_self _
    have hwhole : r.cells.set r.next v = r.cells.take r.next ++ [v] := by
      rw [← take_set_next, take_of_length_le]
      rw [length_set]
      omega
    have hone : (r.cells.drop r.next).tail = [] := by
      rw [tail_drop, drop_eq_nil_iff]
      omega
    have hfilled : (r.push v).filled = true := by
      show (r.filled || (r.next + 1) % r.cells.length == 0) = true
      rw [hnext]
      simp
    have hpushed : (r.push v).contents = r.cells.take r.next ++ [v] := by
      rw [contents, if_pos hfilled]
      show (r.cells.set r.next v).drop ((r.next + 1) % r.cells.length) ++
        (r.cells.set r.next v).take ((r.next + 1) % r.cells.length) = _
      rw [hnext, drop_zero, take_zero, append_nil, hwhole]
    rw [hpushed]
    unfold contents
    split
    · rw [tail_append_of_ne_nil hnil, hone, nil_append]
    · rfl

/-- The ring is filled when as many values as cells have been pushed. -/
theorem contents_push_eq_drop (v : α) : (r.push v).contents =
      (r.contents ++ [v]).drop ((r.contents ++ [v]).length - r.cells.length) := by
  have hlt := r.next_lt
  rw [contents_push, length_append, length_singleton, length_contents]
  split
  · next hfilled =>
    have hone : r.cells.length + 1 - r.cells.length = 1 := by omega
    have hne : r.contents ≠ [] := by
      intro hnil
      have hlen := r.length_contents
      rw [hnil, if_pos hfilled, length_nil] at hlen
      omega
    rw [hone, drop_one, tail_append_of_ne_nil hne]
  · have hzero : r.next + 1 - r.cells.length = 0 := by omega
    rw [hzero, drop_zero]

end

/-- **The ring keeps the latest values.**  After any pushes into a new ring it
holds the last of them, as many as there are cells. -/
theorem contents_foldl_push {n : Nat} (hn : 0 < n) (a : α) (vs : List α) :
    (vs.foldl push (new n hn a)).contents = vs.drop (vs.length - n) := by
  have hkeep : ∀ vs : List α, (vs.foldl push (new n hn a)).cells.length = n ∧
      (vs.foldl push (new n hn a)).contents = vs.drop (vs.length - n) := by
    intro vs
    induction vs using reverseRecOn with
    | nil => exact ⟨length_replicate, by rw [drop_nil]; rfl⟩
    | append_singleton vs v ih =>
      obtain ⟨hlen, hcontents⟩ := ih
      rw [foldl_append, foldl_cons, foldl_nil]
      refine ⟨(length_cells_push _ _).trans hlen, ?_⟩
      rw [contents_push_eq_drop, hlen, hcontents]
      -- Dropping from the front twice drops the sum.
      rcases Nat.le_total vs.length n with hle | hle
      · rw [Nat.sub_eq_zero_of_le hle, drop_zero]
      · rw [← drop_append_of_le_length (Nat.sub_le _ _), drop_drop]
        congr 1
        simp only [length_drop, length_append, length_singleton]
        omega
  exact (hkeep vs).2

end RingBuffer
