import Mathlib.Data.Option.Basic

/-! # One-slot mailboxes that keep the newest value

A writer announces values to a reader through a buffered channel of
capacity one. It never blocks: when the slot is taken it drains the slot
and tries again. The steps of the writer are separate, so the reader may
take a value between any two of them.

The writer also publishes its newest value elsewhere, before it posts it.
A reader that has adopted some value is `Settled` when that value is the
newest one, or when the newest one is still on its way. Every step of
either side keeps this (`Settled.next`, `Settled.take`), and once nothing
is on its way the reader is up to date (`Settled.eq_of_quiet`). -/

/-- Where the writer stands. -/
inductive Mailbox.Writer (α : Type*) where
  | idle
  /-- The first, non-blocking send. -/
  | offering (v : α)
  /-- The slot was taken: receive from it, without blocking. -/
  | draining (v : α)
  /-- The second, non-blocking send. -/
  | refilling (v : α)
  deriving DecidableEq, Repr

/-- A one-slot channel and its only writer. -/
structure Mailbox (α : Type*) where
  slot : Option α
  writer : Mailbox.Writer α
  deriving DecidableEq, Repr

namespace Mailbox

open Option

variable {α : Type*}

def empty : Mailbox α := { slot := none, writer := .idle }

/-- The writer starts to post `v`. -/
def post (m : Mailbox α) (v : α) : Mailbox α := { m with writer := .offering v }

/-- The next step of the writer. -/
def next (m : Mailbox α) : Option (Mailbox α) :=
  match m.writer, m.slot with
  | .idle, _ => none
  | .offering v, none => some { slot := some v, writer := .idle }
  | .offering v, some _ => some { m with writer := .draining v }
  | .draining v, _ => some { slot := none, writer := .refilling v }
  | .refilling v, none => some { slot := some v, writer := .idle }
  | .refilling _, some _ => some { m with writer := .idle }

/-- The reader receives. -/
def take (m : Mailbox α) : Option (α × Mailbox α) :=
  m.slot.map fun v => (v, { m with slot := none })

/-- The writer is busy with the newest value; when it is not, the slot holds
nothing older. -/
def Holds (newest : α) (m : Mailbox α) : Prop :=
  match m.writer with
  | .idle => ∀ v, m.slot = some v → v = newest
  | .offering v => v = newest
  | .draining v => v = newest
  -- The writer is the only one that fills the slot.
  | .refilling v => v = newest ∧ m.slot = none

/-- The reader's value is the newest one, or the newest one is on its way. -/
def Settled (newest adopted : α) (m : Mailbox α) : Prop :=
  adopted = newest ∨ m.slot = some newest ∨ m.writer ≠ .idle

section

variable {newest adopted v : α} {m m' : Mailbox α}

theorem Holds.empty : Holds newest (Mailbox.empty : Mailbox α) := by
  intro v h
  cases h

theorem Holds.post (m : Mailbox α) (v : α) : Holds v (m.post v) := rfl

/-- A step of the writer loses nothing. -/
theorem Holds.next (h : Holds newest m) (hstep : m.next = some m') :
    Holds newest m' ∧ (m'.slot = some newest ∨ m'.writer ≠ .idle) := by
  obtain ⟨slot, writer⟩ := m
  cases writer with
  | idle => cases hstep
  | offering w =>
    obtain rfl : w = newest := h
    cases slot with
    | none =>
      obtain rfl := some.inj hstep
      refine ⟨?_, .inl rfl⟩
      intro x hx
      exact (some.inj hx).symm
    | some old =>
      obtain rfl := some.inj hstep
      exact ⟨rfl, .inr (by simp)⟩
  | draining w =>
    obtain rfl : w = newest := h
    obtain rfl := some.inj hstep
    exact ⟨⟨rfl, rfl⟩, .inr (by simp)⟩
  | refilling w =>
    -- The slot is still empty, so the second send succeeds.
    obtain ⟨rfl, hslot⟩ : w = newest ∧ slot = none := h
    subst hslot
    obtain rfl := some.inj hstep
    refine ⟨?_, .inl rfl⟩
    intro x hx
    exact (some.inj hx).symm

/-- A step of the writer puts nothing into the slot but the newest value. -/
theorem Holds.slot_next (h : Holds newest m) (hstep : m.next = some m')
    (hslot : m'.slot = some v) : m.slot = some v ∨ v = newest := by
  rcases (h.next hstep).2 with hnew | hbusy
  · rw [hnew] at hslot
    exact .inr (some.inj hslot).symm
  · left
    -- The writer has not finished, so it has only looked at the slot.
    obtain ⟨slot, writer⟩ := m
    cases writer with
    | idle => cases hstep
    | offering w | refilling w =>
      cases slot with
      | none =>
        obtain rfl := some.inj hstep
        exact absurd rfl hbusy
      | some old =>
        obtain rfl := some.inj hstep
        exact hslot
    | draining w =>
      obtain rfl := some.inj hstep
      cases hslot

/-- Taking a value leaves the writer alone. -/
theorem Holds.take (h : Holds newest m) (htake : m.take = some (v, m')) :
    Holds newest m' ∧ m.slot = some v ∧ m'.slot = none ∧ m'.writer = m.writer := by
  obtain ⟨slot, writer⟩ := m
  cases slot with
  | none => cases htake
  | some w =>
    obtain ⟨rfl, rfl⟩ := Prod.mk.inj (some.inj htake)
    refine ⟨?_, rfl, rfl, rfl⟩
    cases writer with
    | idle =>
      intro x hx
      cases hx
    | offering w => exact h
    | draining w => exact h
    | refilling w => exact ⟨h.1, rfl⟩

theorem Settled.post (m : Mailbox α) (v : α) : Settled v adopted (m.post v) := by
  right; right
  simp [Mailbox.post]

theorem Settled.next (h : Holds newest m) (hstep : m.next = some m') :
    Settled newest adopted m' :=
  .inr (h.next hstep).2

/-- The reader adopts what it takes. If that is not the newest value, then
the writer has not finished. -/
theorem Settled.take (h : Holds newest m) (htake : m.take = some (v, m')) :
    Settled newest v m' := by
  obtain ⟨-, hslot, -, hwriter⟩ := h.take htake
  by_cases hidle : m.writer = .idle
  · left
    unfold Holds at h
    rw [hidle] at h
    exact h v hslot
  · right; right
    rw [hwriter]
    exact hidle

/-- The reader looks the newest value up where the writer published it. -/
theorem Settled.refresh (m : Mailbox α) : Settled newest newest m := .inl rfl

/-- When nothing is on its way the reader is up to date. -/
theorem Settled.eq_of_quiet (h : Settled newest adopted m) (hslot : m.slot = none)
    (hwriter : m.writer = .idle) : adopted = newest := by
  rcases h with heq | hfull | hbusy
  · exact heq
  · rw [hslot] at hfull
    cases hfull
  · exact absurd hwriter hbusy

end

end Mailbox
