import Otedama.Framework.GoChan
import Otedama.Framework.GoMap
import Otedama.Framework.Machine

/-! # Requests and responses

Any number of goroutines call the pool at once. A call registers a
channel under its id, writes the request, and waits on the channel; the
read loop looks a response's id up, and delivers the response; and
`cancelPending` closes the channels of all calls that still wait.

A channel is used by whoever owns it. It belongs to its call until it is
registered, then to the map; the read loop takes it out of the map before
it sends and closes, and `cancelPending` takes out what it closes. So no
two of them ever use one channel (`RpcInv`).

Calls are numbered. The critical sections of `pendingMu` and the channel
operations are steps; `cancelPending` takes one step for each channel,
which closes it and deletes its entry, and holds the mutex in between.
Requests consist of strings, so that `json.Marshal` does not fail. -/

namespace Otedama.Poolproto

open List

/-! ## The source -/

/-- A response, with the id that was decoded from it and its number in the
order of arrival. -/
structure RpcResponse (β : Type) where
  id : Nat
  number : Nat
  body : β

/-- Why a call gives up. -/
inductive RpcFailure where
  /-- `stratumv1: write: %w` -/
  | write
  /-- `ctx.Err()` -/
  | canceled
  /-- `stratumv1: %s timed out after %s` -/
  | timedOut
  deriving DecidableEq, Repr

/-- What a call returns. -/
inductive RpcResult (β : Type) where
  | response (r : RpcResponse β)
  /-- `stratumv1: session closed before response` -/
  | sessionClosed
  | failed (why : RpcFailure)

/-- Where a call stands. -/
inductive CallPhase where
  /-- It has its id and its channel. -/
  | registering
  /-- It is in the map of pending calls. -/
  | writing
  /-- It is in its `select`. -/
  | waiting
  /-- It is about to take itself out of the map. -/
  | leaving (why : RpcFailure)
  | returned
  deriving DecidableEq, Repr

structure RpcCall (β : Type) where
  id : Nat
  phase : CallPhase
  respCh : GoChan (RpcResponse β) 1

/-- Where the read loop stands in `handleResponse`, and with whose channel. -/
inductive RpcReader (β : Type) where
  | idle
  | sending (call : Nat) (r : RpcResponse β)
  | closing (call : Nat)

structure Rpc (β : Type) where
  /-- A `uint64` in the source; that it wraps after 2^64 calls is left out. -/
  nextID : Nat
  calls : Nat → Option (RpcCall β)
  /-- The call whose channel is registered under an id. -/
  pending : GoMap Nat Nat
  reader : RpcReader β
  /-- How many responses have arrived. -/
  responses : Nat
  /-- `cancelPending` holds `pendingMu`. -/
  canceling : Bool

def Rpc.start (β : Type) : Rpc β where
  nextID := 0
  calls := fun _ => none
  pending := ∅
  reader := .idle
  responses := 0
  canceling := false

inductive RpcMove (β : Type) where
  /-- A call takes its id. -/
  | begin
  | register (call : Nat)
  | write (call : Nat) (ok : Bool)
  /-- The `select` of a call takes its first branch. -/
  | receive (call : Nat)
  /-- It takes one of the others. -/
  | giveUp (call : Nat) (timeout : Bool)
  | leave (call : Nat)
  /-- A response is read, with any id. -/
  | respond (id : Nat) (body : β)
  | deliver
  | closeDelivered
  | cancelPending
  /-- `cancelPending` gets to the channel under an id. -/
  | cancelNext (id : Nat)
  | cancelDone

inductive RpcEvent (β : Type) where
  | arrived (r : RpcResponse β)
  | sent (call : Nat) (r : RpcResponse β)
  | closed (call : Nat)
  | returned (call : Nat) (result : RpcResult β)
  /-- The read loop has to wait to deliver a response. -/
  | blocked (call : Nat)
  | sendOnClosed (call : Nat)
  | closeOfClosed (call : Nat)

namespace Rpc

variable {β : Type}

def setCall (s : Rpc β) (k : Nat) (c : RpcCall β) : Rpc β :=
  { s with calls := Function.update s.calls k (some c) }

/-- `delete(s.pending, id)`. -/
def delete (s : Rpc β) (id : Nat) : Rpc β :=
  { s with pending := s.pending.erase id }

/-- A step of the call `k`, from its record. -/
def callStep (s : Rpc β) (k : Nat) (c : RpcCall β) : RpcMove β → Rpc β × List (RpcEvent β)
  | .register _ =>
      if s.canceling = false ∧ c.phase = .registering then
        ({ s.setCall k { c with phase := .writing } with
           pending := s.pending.insert c.id k }, [])
      else (s, [])
  | .write _ ok =>
      if c.phase = .writing then
        (s.setCall k { c with phase := if ok then .waiting else .leaving .write }, [])
      else (s, [])
  | .receive _ =>
      if c.phase = .waiting then
        match c.respCh.recv with
        | .got r ch =>
            (s.setCall k { c with phase := .returned, respCh := ch }, [.returned k (.response r)])
        | .closed => (s.setCall k { c with phase := .returned }, [.returned k .sessionClosed])
        | .empty => (s, [])
      else (s, [])
  | .giveUp _ timeout =>
      if c.phase = .waiting then
        (s.setCall k { c with phase := .leaving (if timeout then .timedOut else .canceled) }, [])
      else (s, [])
  | .leave _ =>
      match c.phase with
      | .leaving why =>
          if s.canceling then (s, [])
          else ((s.setCall k { c with phase := .returned }).delete c.id,
            [.returned k (.failed why)])
      | _ => (s, [])
  | _ => (s, [])

/-- `handleResponse`, up to the end of its critical section. -/
def respond (s : Rpc β) (id : Nat) (body : β) : Rpc β × List (RpcEvent β) :=
  match s.reader with
  | .idle =>
      if s.canceling then (s, [])
      else
        let r : RpcResponse β := ⟨id, s.responses, body⟩
        ({ s.delete id with
           responses := s.responses + 1
           reader := match s.pending.lookup id with
             | some k => .sending k r
             | none => .idle }, [.arrived r])
  | _ => (s, [])

/-- The send of `handleResponse`. -/
def deliver (s : Rpc β) : Rpc β × List (RpcEvent β) :=
  match s.reader with
  | .sending k r =>
      match s.calls k with
      | some c =>
          match c.respCh.send r with
          | .sent ch => ({ s.setCall k { c with respCh := ch } with reader := .closing k },
              [.sent k r])
          | .full => (s, [.blocked k])
          | .panic => (s, [.sendOnClosed k])
      | none => (s, [])
  | _ => (s, [])

/-- `close` of the channel of the call `k`, by whom `done` says. -/
def closeChan (s : Rpc β) (k : Nat) (done : Rpc β → Rpc β) : Rpc β × List (RpcEvent β) :=
  match s.calls k with
  | some c =>
      match c.respCh.close with
      | some ch => (done (s.setCall k { c with respCh := ch }), [.closed k])
      | none => (s, [.closeOfClosed k])
  | none => (s, [])

def closeDelivered (s : Rpc β) : Rpc β × List (RpcEvent β) :=
  match s.reader with
  | .closing k => s.closeChan k fun s => { s with reader := .idle }
  | _ => (s, [])

/-- One round of the loop of `cancelPending`. -/
def cancelNext (s : Rpc β) (id : Nat) : Rpc β × List (RpcEvent β) :=
  if s.canceling then
    match s.pending.lookup id with
    | some k => s.closeChan k fun s => s.delete id
    | none => (s, [])
  else (s, [])

/-- A step of the call `k`, if there is one. -/
def onCall (s : Rpc β) (k : Nat) (move : RpcMove β) : Rpc β × List (RpcEvent β) :=
  match s.calls k with
  | some c => s.callStep k c move
  | none => (s, [])

end Rpc

/-- The calls, the read loop and `cancelPending`. A move that has to wait, or
that is not the next one of its goroutine, does nothing. -/
def rpc (β : Type) : Machine (Rpc β) (RpcMove β) (RpcEvent β) where
  step s
    | .begin =>
        ({ s.setCall s.nextID ⟨s.nextID + 1, .registering, GoChan.empty⟩ with
           nextID := s.nextID + 1 }, [])
    | .register k => s.onCall k (.register k)
    | .write k ok => s.onCall k (.write k ok)
    | .receive k => s.onCall k (.receive k)
    | .giveUp k timeout => s.onCall k (.giveUp k timeout)
    | .leave k => s.onCall k (.leave k)
    | .respond id body => s.respond id body
    | .deliver => s.deliver
    | .closeDelivered => s.closeDelivered
    | .cancelPending => ({ s with canceling := true }, [])
    | .cancelNext id => s.cancelNext id
    -- The loop ends when the map is empty.
    | .cancelDone => if GoMap.len s.pending = 0 then ({ s with canceling := false }, []) else (s, [])

/-! ## Whose channel it is -/

section

variable {β : Type} {es : List (RpcEvent β)} {s s' : Rpc β}

/-- What the read loop is about to do with the channel of the call `k`: send
a response and close, or close. -/
def RpcReader.duty (k : Nat) : RpcReader β → Option (Option (RpcResponse β))
  | .idle => none
  | .sending j r => if j = k then some (some r) else none
  | .closing j => if j = k then some none else none

/-- The call is in the map, unless someone took it out. -/
def CallPhase.Active : CallPhase → Prop
  | .writing | .waiting | .leaving _ => True
  | .registering | .returned => False

/-- The event is a send on, or a close of, the channel of the call `k`. -/
def RpcEvent.uses (k : Nat) : RpcEvent β → Bool
  | .sent j _ => j = k
  | .closed j => j = k
  | _ => false

/-- The responses in the order of arrival. -/
def responsesOf (es : List (RpcEvent β)) : List (RpcResponse β) :=
  es.filterMap fun
    | .arrived r => some r
    | _ => none

/-- The channel is as it was made. -/
structure Unused (es : List (RpcEvent β)) (k : Nat) (c : RpcCall β) : Prop where
  buf : c.respCh.buf = []
  opened : c.respCh.closed = false
  events : ∀ e ∈ es, e.uses k = false

/-- Who may use the channel of the call `k`. -/
inductive Holder (es : List (RpcEvent β)) (s : Rpc β) (k : Nat) (c : RpcCall β) : Prop where
  | caller (phase : c.phase = .registering) (unmapped : s.pending.lookup (k + 1) = none)
      (away : s.reader.duty k = none) (unused : Unused es k c)
  | map (mapped : s.pending.lookup (k + 1) = some k) (phase : c.phase.Active)
      (away : s.reader.duty k = none) (unused : Unused es k c)
  | sender (r : RpcResponse β) (duty : s.reader.duty k = some (some r)) (own : r.id = k + 1)
      (arrived : r ∈ responsesOf es) (unmapped : s.pending.lookup (k + 1) = none)
      (phase : c.phase ≠ .registering) (unused : Unused es k c)
  | closer (duty : s.reader.duty k = some none) (unmapped : s.pending.lookup (k + 1) = none)
      (phase : c.phase ≠ .registering) (opened : c.respCh.closed = false)
      (events : .closed k ∉ es)
  | nobody (unmapped : s.pending.lookup (k + 1) = none) (away : s.reader.duty k = none)
      (phase : c.phase ≠ .registering)

/-- What holds of one call. -/
structure CallInv (es : List (RpcEvent β)) (s : Rpc β) (k : Nat) (c : RpcCall β) : Prop where
  id : c.id = k + 1
  holder : Holder es s k c
  buffered : ∀ r ∈ c.respCh.buf, r.id = k + 1 ∧ r ∈ responsesOf es

/-- Every channel has its holder. -/
structure Owners (es : List (RpcEvent β)) (s : Rpc β) : Prop where
  call : ∀ k c, s.calls k = some c → CallInv es s k c
  born : ∀ k, s.calls k = none ↔ s.nextID ≤ k
  fresh : ∀ k, s.nextID ≤ k → s.reader.duty k = none ∧ ∀ e ∈ es, e.uses k = false
  keys : ∀ id k, s.pending.lookup id = some k → id = k + 1 ∧ k < s.nextID

/-- A step concerns no call but `k`. -/
structure Elsewhere (k : Nat) (s s' : Rpc β) (new : List (RpcEvent β)) : Prop where
  calls : ∀ j, j ≠ k → s'.calls j = s.calls j
  pending : ∀ j, j ≠ k → s'.pending.lookup (j + 1) = s.pending.lookup (j + 1)
  duty : ∀ j, j ≠ k → s'.reader.duty j = s.reader.duty j
  events : ∀ j, j ≠ k → ∀ e ∈ new, e.uses j = false

theorem responsesOf_append (es fs : List (RpcEvent β)) :
    responsesOf (es ++ fs) = responsesOf es ++ responsesOf fs := filterMap_append

theorem mem_responsesOf_append {r : RpcResponse β} (h : r ∈ responsesOf es)
    (new : List (RpcEvent β)) : r ∈ responsesOf (es ++ new) := by
  rw [responsesOf_append]
  exact mem_append_left _ h

variable {k : Nat} {new : List (RpcEvent β)} {c : RpcCall β}

theorem uses_append (hes : ∀ e ∈ es, e.uses k = false) (hnew : ∀ e ∈ new, e.uses k = false) :
    ∀ e ∈ es ++ new, e.uses k = false := by
  intro e he
  obtain he | he := mem_append.mp he
  · exact hes e he
  · exact hnew e he

theorem closed_not_mem_append (hes : .closed k ∉ es) (hnew : ∀ e ∈ new, e.uses k = false) :
    .closed k ∉ es ++ new := by
  intro hmem
  obtain hmem | hmem := mem_append.mp hmem
  · exact hes hmem
  · exact absurd (hnew _ hmem) (by simp [RpcEvent.uses])

theorem Unused.append (h : Unused es k c) (hnew : ∀ e ∈ new, e.uses k = false) :
    Unused (es ++ new) k c :=
  ⟨h.buf, h.opened, uses_append h.events hnew⟩

theorem Unused.closed_not_mem (h : Unused es k c) : .closed k ∉ es := by
  intro hmem
  exact absurd (h.events _ hmem) (by simp [RpcEvent.uses])

/-- A channel that is registered belongs to the map. -/
theorem Holder.of_mapped {j : Nat} (h : Holder es s k c)
    (hmapped : s.pending.lookup (k + 1) = some j) :
    c.phase.Active ∧ s.reader.duty k = none ∧ Unused es k c := by
  cases h with
  | map _ phase away unused => exact ⟨phase, away, unused⟩
  | caller _ unmapped _ _ => cases hmapped.symm.trans unmapped
  | sender _ _ _ _ unmapped _ _ => cases hmapped.symm.trans unmapped
  | closer _ unmapped _ _ _ => cases hmapped.symm.trans unmapped
  | nobody unmapped _ _ => cases hmapped.symm.trans unmapped

/-- A channel that the read loop is about to send on belongs to it. -/
theorem Holder.of_sending {r : RpcResponse β} (h : Holder es s k c)
    (hduty : s.reader.duty k = some (some r)) :
    r.id = k + 1 ∧ r ∈ responsesOf es ∧ s.pending.lookup (k + 1) = none ∧
      c.phase ≠ .registering ∧ Unused es k c := by
  cases h with
  | sender r' duty own arrived unmapped phase unused =>
    cases hduty.symm.trans duty
    exact ⟨own, arrived, unmapped, phase, unused⟩
  | caller _ _ away _ => cases hduty.symm.trans away
  | map _ _ away _ => cases hduty.symm.trans away
  | closer duty _ _ _ _ => cases hduty.symm.trans duty
  | nobody _ away _ => cases hduty.symm.trans away

/-- So does one that it is about to close. -/
theorem Holder.of_closing (h : Holder es s k c) (hduty : s.reader.duty k = some none) :
    s.pending.lookup (k + 1) = none ∧ c.phase ≠ .registering ∧ c.respCh.closed = false ∧
      .closed k ∉ es := by
  cases h with
  | closer _ unmapped phase opened events => exact ⟨unmapped, phase, opened, events⟩
  | caller _ _ away _ => cases hduty.symm.trans away
  | map _ _ away _ => cases hduty.symm.trans away
  | sender _ duty _ _ _ _ _ => cases hduty.symm.trans duty
  | nobody _ away _ => cases hduty.symm.trans away

theorem CallInv.buffered_append (h : CallInv es s k c) (new : List (RpcEvent β)) :
    ∀ r ∈ c.respCh.buf, r.id = k + 1 ∧ r ∈ responsesOf (es ++ new) := by
  intro r hr
  exact ⟨(h.buffered r hr).1, mem_responsesOf_append (h.buffered r hr).2 new⟩

/-- Frame rule for one call. -/
theorem CallInv.frame (h : CallInv es s k c)
    (hpending : s'.pending.lookup (k + 1) = s.pending.lookup (k + 1))
    (hduty : s'.reader.duty k = s.reader.duty k) (hnew : ∀ e ∈ new, e.uses k = false) :
    CallInv (es ++ new) s' k c := by
  refine ⟨h.id, ?_, h.buffered_append new⟩
  cases h.holder with
  | caller phase unmapped away unused =>
    exact .caller phase (hpending.trans unmapped) (hduty.trans away) (unused.append hnew)
  | map mapped phase away unused =>
    exact .map (hpending.trans mapped) phase (hduty.trans away) (unused.append hnew)
  | sender r duty own arrived unmapped phase unused =>
    exact .sender r (hduty.trans duty) own (mem_responsesOf_append arrived _)
      (hpending.trans unmapped) phase (unused.append hnew)
  | closer duty unmapped phase opened events =>
    exact .closer (hduty.trans duty) (hpending.trans unmapped) phase opened
      (closed_not_mem_append events hnew)
  | nobody unmapped away phase => exact .nobody (hpending.trans unmapped) (hduty.trans away) phase

/-- A step that concerns the call `k` has to give this channel a holder. -/
theorem Owners.update {c' : RpcCall β} (h : Owners es s) (helse : Elsewhere k s s' new)
    (hcall : s'.calls k = some c') (hnext : ∀ j, j ≠ k → (s'.nextID ≤ j ↔ s.nextID ≤ j))
    (hlt : k < s'.nextID)
    (hkeys : ∀ id j, s'.pending.lookup id = some j → id = j + 1 ∧ j < s'.nextID)
    (hk : CallInv (es ++ new) s' k c') : Owners (es ++ new) s' := by
  refine ⟨?_, ?_, ?_, hkeys⟩
  · intro j c hj
    by_cases hjk : j = k
    · subst hjk
      cases hcall.symm.trans hj
      exact hk
    · rw [helse.calls j hjk] at hj
      exact (h.call j c hj).frame (helse.pending j hjk) (helse.duty j hjk) (helse.events j hjk)
  · intro j
    by_cases hjk : j = k
    · subst hjk
      rw [hcall]
      simp only [reduceCtorEq, false_iff]
      omega
    · rw [helse.calls j hjk, h.born, hnext j hjk]
  · intro j hj
    have hjk : j ≠ k := by omega
    have hfresh := h.fresh j ((hnext j hjk).mp hj)
    exact ⟨(helse.duty j hjk).trans hfresh.1, uses_append hfresh.2 (helse.events j hjk)⟩

/-- A step that concerns no call. -/
theorem Owners.quiet (h : Owners es s) (hcalls : s'.calls = s.calls) (hnext : s'.nextID = s.nextID)
    (hpending : ∀ id, s'.pending.lookup id = s.pending.lookup id)
    (hduty : ∀ k, s'.reader.duty k = s.reader.duty k) (hnew : ∀ k, ∀ e ∈ new, e.uses k = false) :
    Owners (es ++ new) s' := by
  refine ⟨?_, ?_, ?_, ?_⟩
  · intro k c hk
    rw [hcalls] at hk
    exact (h.call k c hk).frame (hpending _) (hduty k) (hnew k)
  · intro k
    rw [hcalls, hnext]
    exact h.born k
  · intro k hk
    rw [hnext] at hk
    exact ⟨(hduty k).trans (h.fresh k hk).1, uses_append (h.fresh k hk).2 (hnew k)⟩
  · intro id k hk
    rw [hpending] at hk
    rw [hnext]
    exact h.keys id k hk

theorem Owners.lt_nextID (h : Owners es s) (hk : s.calls k = some c) : k < s.nextID := by
  by_contra hle
  rw [(h.born k).mpr (Nat.le_of_not_lt hle)] at hk
  cases hk

theorem Owners.exists_call (h : Owners es s) (hk : k < s.nextID) : ∃ c, s.calls k = some c := by
  cases hc : s.calls k with
  | none => exact absurd ((h.born k).mp hc) (by omega)
  | some c => exact ⟨c, rfl⟩

/-- The read loop only ever has the channel of an existing call. -/
theorem Owners.lt_of_duty {d : Option (RpcResponse β)} (h : Owners es s)
    (hd : s.reader.duty k = some d) : k < s.nextID := by
  by_contra hle
  rw [(h.fresh k (Nat.le_of_not_lt hle)).1] at hd
  cases hd

theorem duty_sending (k : Nat) (r : RpcResponse β) :
    (RpcReader.sending k r).duty k = some (some r) := if_pos rfl

theorem duty_closing (k : Nat) : (RpcReader.closing k : RpcReader β).duty k = some none := if_pos rfl

theorem duty_sending_of_ne {j : Nat} (h : j ≠ k) (r : RpcResponse β) :
    (RpcReader.sending k r).duty j = none := if_neg (Ne.symm h)

theorem duty_closing_of_ne {j : Nat} (h : j ≠ k) :
    (RpcReader.closing k : RpcReader β).duty j = none := if_neg (Ne.symm h)

end

end Otedama.Poolproto
