import Mathlib.Data.Fintype.Card
import Otedama.Framework.Fairness
import Otedama.Framework.GoChan

/-! # Detecting devices

`Detect` runs every driver in a goroutine of its own and collects the results
from a channel with room for all of them, until it is closed or the context
is cancelled.

In whatever order the drivers answer, no goroutine is left waiting, no device
is reported twice or made up, and without an error none with a valid identity
is missing (`detect_exact`). -/

namespace Otedama.Hal

open List Option

variable {n : Nat} {δ : Type}

/-! ## The source -/

/-- What the drivers enumerate, and which devices pass
`Identity().Validate()`. The error of a driver is only logged; what it
enumerated all the same counts. -/
structure Drivers (n : Nat) (δ : Type) where
  enumerate : Fin n → List δ
  valid : δ → Bool

/-- The devices of a driver that are kept. -/
def Drivers.kept (d : Drivers n δ) (i : Fin n) : List δ := (d.enumerate i).filter d.valid

structure Detection (n : Nat) (δ : Type) where
  resultsCh : GoChan (Fin n) n
  /-- Whose results have been received, in this order. -/
  received : List (Fin n)
  all : List δ
  canceled : Bool
  /-- What `Detect` has returned, and whether with the context's error. -/
  returned : Option (List δ × Bool)

/-- Without drivers `Detect` returns at once. -/
def Detection.start : Detection n δ :=
  ⟨GoChan.empty, [], [], false, if n = 0 then some ([], false) else none⟩

/-- The drivers whose goroutine is done. -/
def Detection.sent (s : Detection n δ) : List (Fin n) := s.received ++ s.resultsCh.buf

inductive DetectMove (n : Nat) where
  | send (i : Fin n)
  /-- `wg.Wait` returns, and the channel is closed. -/
  | close
  | receive
  | cancel
  /-- The collector sees that the context is done. -/
  | stop

def Detection.next (d : Drivers n δ) (s : Detection n δ) : DetectMove n → Option (Detection n δ)
  | .send i =>
      if i ∈ s.sent then none
      else
        match s.resultsCh.send i with
        | .sent c => some { s with resultsCh := c }
        | _ => none
  | .close =>
      if ∀ i, i ∈ s.sent then s.resultsCh.close.map fun c => { s with resultsCh := c } else none
  | .receive =>
      if s.returned.isSome then none
      else
        match s.resultsCh.recv with
        | .got i c =>
            some { s with
              resultsCh := c
              received := s.received ++ [i]
              all := s.all ++ d.kept i }
        | .closed => some { s with returned := some (s.all, s.canceled) }
        | .empty => none
  | .cancel => some { s with canceled := true }
  | .stop =>
      if s.canceled ∧ s.returned.isNone then some { s with returned := some (s.all, true) }
      else none

def detect (d : Drivers n δ) : LTS (Detection n δ) (DetectMove n) where
  next := Detection.next d

/-! ## What is returned -/

/-- The devices returned are those of the drivers whose results were received,
in the order of reception, each driver once, and of all drivers unless there
is an error. -/
def Exact (d : Drivers n δ) (s : Detection n δ) (r : List δ × Bool) : Prop :=
  r.1 = s.received.flatMap d.kept ∧ s.received.Nodup ∧ (r.2 = false → ∀ i, i ∈ s.received)

structure DetectInv (d : Drivers n δ) (s : Detection n δ) : Prop where
  nodup : s.sent.Nodup
  collected : s.all = s.received.flatMap d.kept
  closed : s.resultsCh.closed = true → ∀ i, i ∈ s.sent
  exact : ∀ r ∈ s.returned, Exact d s r

theorem DetectInv.next {d : Drivers n δ} {s s' : Detection n δ} {move : DetectMove n}
    (h : DetectInv d s) (hnext : s.next d move = some s') : DetectInv d s' := by
  have hreceived : s.received.Nodup := h.nodup.sublist (sublist_append_left _ _)
  unfold Detection.next at hnext
  cases move with
  | send i =>
    dsimp only at hnext
    split at hnext
    · cases hnext
    · next hnot =>
      split at hnext
      · next c hsend =>
        obtain rfl := some.inj hnext
        obtain ⟨-, -, hbuf, hopen⟩ := GoChan.send_eq_sent.mp hsend
        refine ⟨?_, h.collected, fun hclosed => ?_, h.exact⟩
        · show (s.received ++ c.buf).Nodup
          rw [hbuf, ← append_assoc]
          exact h.nodup.append (nodup_singleton i) (by simpa using hnot)
        · rw [show c.closed = false from hopen] at hclosed
          cases hclosed
      · cases hnext
  | close =>
    dsimp only at hnext
    split at hnext
    · next hall =>
      obtain ⟨c, hclose, rfl⟩ := map_eq_some_iff.mp hnext
      obtain ⟨-, hbuf, -⟩ := GoChan.close_eq_some.mp hclose
      have hsent : Detection.sent { s with resultsCh := c } = s.sent := by
        unfold Detection.sent
        rw [hbuf]
      exact ⟨hsent ▸ h.nodup, h.collected, fun _ => hsent ▸ hall, h.exact⟩
    · cases hnext
  | receive =>
    dsimp only at hnext
    split at hnext
    · cases hnext
    · next hrunning =>
      split at hnext
      · next i c hrecv =>
        obtain rfl := some.inj hnext
        obtain ⟨hbuf, hclosed⟩ := GoChan.recv_eq_got.mp hrecv
        have hsent : s.sent = s.received ++ [i] ++ c.buf := by
          rw [append_assoc, singleton_append, ← hbuf]
          rfl
        have hnodup := h.nodup
        have hall := h.closed
        rw [hsent] at hnodup hall
        refine ⟨hnodup, ?_, fun hc => hall (hclosed ▸ hc), fun r hr => ?_⟩
        · show s.all ++ d.kept i = _
          rw [h.collected, flatMap_append, flatMap_singleton]
        · -- `Detect` has not returned yet.
          exact absurd (Option.isSome_of_mem hr) hrunning
      · next hrecv =>
        obtain rfl := some.inj hnext
        obtain ⟨hbuf, hclosed⟩ := GoChan.recv_eq_closed.mp hrecv
        refine ⟨h.nodup, h.collected, h.closed, ?_⟩
        -- The channel is drained, so everything sent has been received.
        rintro _ ⟨⟩
        refine ⟨h.collected, hreceived, fun _ i => ?_⟩
        simpa [Detection.sent, hbuf] using h.closed hclosed i
      · cases hnext
  | cancel =>
    obtain rfl := some.inj hnext
    exact ⟨h.nodup, h.collected, h.closed, h.exact⟩
  | stop =>
    dsimp only at hnext
    split at hnext
    · obtain rfl := some.inj hnext
      refine ⟨h.nodup, h.collected, h.closed, ?_⟩
      rintro _ ⟨⟩
      exact ⟨h.collected, hreceived, nofun⟩
    · cases hnext

/-- In every run of `Detect`, the goroutine of a driver that has not sent yet
can send at once, and what has been returned is exact. -/
theorem detect_exact (d : Drivers n δ) {moves : List (DetectMove n)} {s : Detection n δ}
    (h : (detect d).exec Detection.start moves = some s) :
    (∀ i, i ∉ s.sent → ∃ c, s.resultsCh.send i = .sent c) ∧ ∀ r ∈ s.returned, Exact d s r := by
  have hinv : DetectInv d s := by
    refine (detect d).exec_history (P := fun _ s => DetectInv d s) ?_ ?_ moves h
    · refine ⟨nodup_nil, rfl, nofun, fun r hr => ?_⟩
      unfold Detection.start at hr
      split at hr
      · next hn =>
        obtain rfl := some.inj hr
        exact ⟨rfl, nodup_nil, fun _ i => (hn ▸ i).elim0⟩
      · cases hr
    · intro _ s _ s' _ hinv hnext
      exact hinv.next hnext
  refine ⟨fun i hi => ?_, hinv.exact⟩
  have hroom : s.resultsCh.buf.length < n := by
    have hle := (nodup_cons.mpr ⟨hi, hinv.nodup⟩).length_le_card
    rw [Fintype.card_fin, length_cons, Detection.sent, length_append] at hle
    omega
  have hopen : s.resultsCh.closed = false := by
    by_contra hclosed
    exact hi (hinv.closed (by simpa using hclosed) i)
  refine ⟨⟨s.resultsCh.buf ++ [i], false, ?_⟩, GoChan.send_eq_sent.mpr ⟨hopen, hroom, rfl, rfl⟩⟩
  rw [length_append, length_singleton]
  exact hroom

/-- Two drivers; the device `0` is not valid. -/
def sampleDrivers : Drivers 2 Nat := ⟨fun i => if i.val = 0 then [7, 0] else [5], (· != 0)⟩

theorem detect_exact_sample : ∃ s, (detect sampleDrivers).exec Detection.start
      [.send 1, .receive, .send 0, .close, .receive, .receive] = some s ∧
    s.returned = some ([5, 7], false) ∧ s.received = [1, 0] ∧ Exact sampleDrivers s ([5, 7], false) := by
  have hend : ((detect sampleDrivers).exec Detection.start
      [.send 1, .receive, .send 0, .close, .receive, .receive]).map
      (fun s => (s.returned, s.received)) = some (some ([5, 7], false), [1, 0]) := by decide
  obtain ⟨s, hexec, hs⟩ := map_eq_some_iff.mp hend
  obtain ⟨hreturned, hreceived⟩ := Prod.mk.inj hs
  exact ⟨s, hexec, hreturned, hreceived, (detect_exact _ hexec).2 _ hreturned⟩

end Otedama.Hal
