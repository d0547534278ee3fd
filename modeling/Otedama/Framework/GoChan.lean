import Mathlib.Data.List.Basic

/-! # Buffered channels

A Go channel with a buffer of `cap` values. Each operation is one atomic
step; its result says what the operation would do: succeed, block, or
panic. A non-blocking operation takes its default branch where a blocking
one would wait. -/

/-- A channel that buffers up to `cap` values. -/
structure GoChan (α : Type*) (cap : Nat) where
  buf : List α
  closed : Bool
  bounded : buf.length ≤ cap

namespace GoChan

variable {α : Type*} {cap : Nat}

/-- `make(chan α, cap)`. -/
def empty : GoChan α cap := ⟨[], false, Nat.zero_le cap⟩

/-- What a send does. -/
inductive Send (α : Type*) (cap : Nat) where
  | sent (c : GoChan α cap)
  /-- The buffer is full. -/
  | full
  /-- The channel is closed. -/
  | panic

def send (c : GoChan α cap) (v : α) : Send α cap :=
  if c.closed then .panic
  else if h : c.buf.length < cap then
    .sent ⟨c.buf ++ [v], false, by rw [List.length_append, List.length_singleton]; exact h⟩
  else .full

/-- What a receive does. -/
inductive Recv (α : Type*) (cap : Nat) where
  | got (v : α) (c : GoChan α cap)
  /-- The buffer is empty. -/
  | empty
  /-- The buffer is empty and the channel is closed. -/
  | closed

def recv (c : GoChan α cap) : Recv α cap :=
  match h : c.buf with
  | v :: rest => .got v ⟨rest, c.closed, by
      have hle := c.bounded
      rw [h, List.length_cons] at hle
      omega⟩
  | [] => if c.closed then .closed else .empty

/-- `close`; `none` if it panics. -/
def close (c : GoChan α cap) : Option (GoChan α cap) :=
  if c.closed then none else some { c with closed := true }

variable {c : GoChan α cap}

/-- A send succeeds exactly on an open channel with room. -/
theorem send_eq_sent {c' : GoChan α cap} {v : α} : c.send v = .sent c' ↔
      c.closed = false ∧ c.buf.length < cap ∧ c'.buf = c.buf ++ [v] ∧ c'.closed = false := by
  unfold send
  cases hclosed : c.closed with
  | true => simp
  | false =>
    rw [if_neg Bool.false_ne_true]
    by_cases hlt : c.buf.length < cap
    · rw [dif_pos hlt]
      constructor
      · intro h
        cases h
        exact ⟨rfl, hlt, rfl, rfl⟩
      · rintro ⟨-, -, hbuf, hopen⟩
        obtain ⟨buf, closed, bounded⟩ := c'
        subst hbuf hopen
        rfl
    · rw [dif_neg hlt]
      simp [hlt]

theorem send_eq_full {v : α} : c.send v = .full ↔ c.closed = false ∧ c.buf.length = cap := by
  unfold send
  have hle := c.bounded
  cases hclosed : c.closed with
  | true => simp
  | false =>
    rw [if_neg Bool.false_ne_true]
    by_cases hlt : c.buf.length < cap
    · rw [dif_pos hlt]
      simp only [reduceCtorEq, true_and, false_iff]
      omega
    · rw [dif_neg hlt]
      simp only [true_and, true_iff]
      omega

theorem send_eq_panic {v : α} : c.send v = .panic ↔ c.closed = true := by
  unfold send
  cases hclosed : c.closed with
  | true => simp
  | false =>
    rw [if_neg Bool.false_ne_true]
    split <;> simp

/-- A receive takes the oldest value. -/
theorem recv_eq_got {c' : GoChan α cap} {v : α} :
    c.recv = .got v c' ↔ c.buf = v :: c'.buf ∧ c'.closed = c.closed := by
  unfold recv
  split
  · rename_i w rest hbuf
    constructor
    · intro h
      cases h
      exact ⟨hbuf, rfl⟩
    · rintro ⟨heq, hclosed⟩
      obtain ⟨rfl, hrest⟩ := List.cons.inj (hbuf.symm.trans heq)
      obtain ⟨buf, closed, bounded⟩ := c'
      subst hrest hclosed
      rfl
  · rename_i hbuf
    constructor
    · intro h
      split at h <;> cases h
    · rintro ⟨heq, -⟩
      cases hbuf.symm.trans heq

theorem recv_eq_empty : c.recv = .empty ↔ c.buf = [] ∧ c.closed = false := by
  unfold recv
  split
  · rename_i w rest hbuf
    simp [hbuf]
  · rename_i hbuf
    cases hclosed : c.closed <;> simp [hbuf]

theorem recv_eq_closed : c.recv = .closed ↔ c.buf = [] ∧ c.closed = true := by
  unfold recv
  split
  · rename_i w rest hbuf
    simp [hbuf]
  · rename_i hbuf
    cases hclosed : c.closed <;> simp [hbuf]

theorem close_eq_some {c' : GoChan α cap} :
    c.close = some c' ↔ c.closed = false ∧ c'.buf = c.buf ∧ c'.closed = true := by
  unfold close
  cases hclosed : c.closed with
  | true => simp
  | false =>
    rw [if_neg Bool.false_ne_true]
    constructor
    · intro h
      cases h
      exact ⟨rfl, rfl, rfl⟩
    · rintro ⟨-, hbuf, hshut⟩
      obtain ⟨buf, closed, bounded⟩ := c'
      subst hbuf hshut
      rfl

/-- A second close panics. -/
theorem close_eq_none : c.close = none ↔ c.closed = true := by
  unfold close
  cases c.closed <;> simp

end GoChan
