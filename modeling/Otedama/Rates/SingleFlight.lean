import Otedama.Framework.Fairness
import Otedama.Framework.Heap
import Otedama.Rates.Fetcher

/-! # One fetch at a time

`Fetch` may be called from any number of goroutines. The first caller
registers a record, runs `doFetch`, unregisters the record, writes the
error into it and closes its channel. A caller that finds a record
registered waits for its channel or for its own context.

The atomic steps are the two critical sections of `inflightMu`, the end
of `doFetch`, the write of the error, the close, the receive, the read of
the error and the returns. So a caller may arrive between the end of
`doFetch` and its unregistration, and it then joins a fetch that is over;
or between the unregistration and the close, and it then starts a fetch
of its own while others still wait for the old one.

* **State**: the fetcher, the pointer `inflight`, the records, and for
  each call where it stands and whether its context is done.
* **Invariant**: each record is led by exactly one call, and what the
  record holds follows from where that call stands (`Standing`); the
  pointer is set exactly while the leader of its record is in `doFetch`
  or has not yet unregistered. -/

namespace Otedama.Rates

open Function

/-! ## Calls and records -/

/-- What `ctx.Err()` returns once the context is done. -/
inductive CtxError where
  | canceled
  | deadlineExceeded
  deriving DecidableEq, Repr

abbrev CallId := Nat

/-- `fetchCall` -/
structure FetchCall (ε : Type*) where
  /-- How often `done` has been closed. -/
  closes : Nat := 0
  err : Option (FetchError ε) := none
  deriving DecidableEq, Repr

instance {ε : Type*} : Inhabited (FetchCall ε) := ⟨{}⟩

/-- What `Fetch` returns: the outcome of a `doFetch` or the error of the own
context. -/
inductive Returned (ε : Type*) where
  | outcome (err : Option (FetchError ε))
  | ctxErr (err : CtxError)
  deriving DecidableEq, Repr

/-- Where a call stands, with the record it holds. -/
inductive Phase (ε : Type*) where
  /-- Not called yet. -/
  | idle
  /-- Before the first critical section. -/
  | called
  /-- In the `select`. -/
  | waiting (p : Ref)
  /-- Received from `call.done`. -/
  | woken (p : Ref)
  /-- Returned, after waiting. -/
  | joined (p : Ref) (r : Returned ε)
  /-- In `doFetch`. -/
  | running (p : Ref)
  /-- Before the second critical section. -/
  | ended (p : Ref) (err : Option (FetchError ε))
  /-- Before the write of `call.err`. -/
  | cleared (p : Ref) (err : Option (FetchError ε))
  /-- Before the close of `call.done`. -/
  | written (p : Ref) (err : Option (FetchError ε))
  /-- Before the return. -/
  | closed (p : Ref) (err : Option (FetchError ε))
  /-- Returned, after a `doFetch` of its own. -/
  | led (p : Ref) (err : Option (FetchError ε))
  deriving DecidableEq, Repr

variable {ε : Type*}

/-- The record that the call has made. -/
def Phase.leads : Phase ε → Option Ref
  | .running p | .ended p _ | .cleared p _ | .written p _ | .closed p _ | .led p _ => some p
  | _ => none

/-- The record that the call has registered and not yet unregistered. -/
def Phase.registers : Phase ε → Option Ref
  | .running p | .ended p _ => some p
  | _ => none

/-- What the call has returned. -/
def Phase.result : Phase ε → Option (Returned ε)
  | .joined _ r => some r
  | .led _ err => some (.outcome err)
  | _ => none

theorem Phase.leads_of_registers {ph : Phase ε} {p : Ref} (h : ph.registers = some p) :
    ph.leads = some p := by
  cases ph with
  | running q => exact h
  | ended q err => exact h
  | _ => cases h

structure Flights (ε : Type*) where
  fetcher : Fetcher
  inflight : Option Ref
  records : Heap (FetchCall ε)
  phase : CallId → Phase ε
  ctxErr : CallId → Option CtxError

/-- Before any call. -/
def noFlights (f : Fetcher) : Flights ε where
  fetcher := f
  inflight := none
  records := Heap.empty
  phase _ := .idle
  ctxErr _ := none

/-! ## Steps -/

inductive FlightLabel (ε : Type*) where
  | call (c : CallId)
  /-- The context of the call is done. -/
  | cancel (c : CallId) (err : CtxError)
  /-- The first critical section. -/
  | enter (c : CallId)
  /-- `doFetch` ends at time `now`; its results came in as `arrived`. -/
  | finish (c : CallId) (now : Int) (arrived : List (Result ε))
  /-- The second critical section. -/
  | clear (c : CallId)
  | write (c : CallId)
  | close (c : CallId)
  | ret (c : CallId)
  | receive (c : CallId)
  | read (c : CallId)
  /-- The other branch of the `select`. -/
  | abandon (c : CallId)
  deriving DecidableEq, Repr

/-- The call that the step is about. -/
def FlightLabel.actor : FlightLabel ε → CallId
  | .call c | .cancel c _ | .enter c | .finish c _ _ | .clear c | .write c | .close c | .ret c
  | .receive c | .read c | .abandon c => c

namespace Flights

/-- The call goes on to another program point. -/
def move (s : Flights ε) (c : CallId) (ph : Phase ε) : Flights ε :=
  { s with phase := Function.update s.phase c ph }

/-- The call registers a new record and goes into `doFetch`. -/
def lead (s : Flights ε) (c : CallId) : Flights ε :=
  { s.move c (.running s.records.size) with
    inflight := some s.records.size
    records := s.records.alloc {} }

/-- The call changes its record. -/
def update (s : Flights ε) (p : Ref) (g : FetchCall ε → FetchCall ε) : Flights ε :=
  { s with records := s.records.write p (g (s.records.read p)) }

@[simp] theorem phase_move_self (s : Flights ε) (c : CallId) (ph : Phase ε) :
    (s.move c ph).phase c = ph := update_self ..

@[simp] theorem phase_move_ne (s : Flights ε) {c c' : CallId} (ph : Phase ε) (h : c' ≠ c) :
    (s.move c ph).phase c' = s.phase c' := update_of_ne h ..

@[simp] theorem phase_lead_self (s : Flights ε) (c : CallId) :
    (s.lead c).phase c = .running s.records.size := s.phase_move_self ..

@[simp] theorem phase_lead_ne (s : Flights ε) {c c' : CallId} (h : c' ≠ c) :
    (s.lead c).phase c' = s.phase c' := s.phase_move_ne _ h

/-- What a move does not change about the call itself it changes about no
call. -/
theorem apply_move {β : Type*} (g : Phase ε → β) {s : Flights ε} {c : CallId} {ph : Phase ε}
    (h : g ph = g (s.phase c)) (c' : CallId) : g ((s.move c ph).phase c') = g (s.phase c') := by
  by_cases hc : c' = c
  · subst hc
    rw [phase_move_self, h]
  · rw [phase_move_ne s ph hc]

end Flights

/-- `Fetch`, called any number of times. -/
def singleFlight : LTS (Flights ε) (FlightLabel ε) where
  next s
    | .call c =>
      match s.phase c with
      | .idle => some (s.move c .called)
      | _ => none
    | .cancel c err =>
      if s.ctxErr c = none then some { s with ctxErr := Function.update s.ctxErr c (some err) }
      else none
    | .enter c =>
      match s.phase c with
      | .called =>
        -- A fetch is registered: wait for it. Otherwise register one.
        match s.inflight with
        | some p => some (s.move c (.waiting p))
        | none => some (s.lead c)
      | _ => none
    | .finish c now arrived =>
      match s.phase c with
      | .running p =>
        -- No other call is in `doFetch`, so its writes are one step here.
        let out := doFetch s.fetcher now arrived
        some { s.move c (.ended p out.err) with fetcher := out.fetcher }
      | _ => none
    | .clear c =>
      match s.phase c with
      | .ended p err => some { s.move c (.cleared p err) with inflight := none }
      | _ => none
    | .write c =>
      match s.phase c with
      | .cleared p err =>
        some ((s.move c (.written p err)).update p fun call => { call with err := err })
      | _ => none
    | .close c =>
      match s.phase c with
      | .written p err =>
        some ((s.move c (.closed p err)).update p fun call =>
          { call with closes := call.closes + 1 })
      | _ => none
    | .ret c =>
      match s.phase c with
      | .closed p err => some (s.move c (.led p err))
      | _ => none
    | .receive c =>
      -- A closed channel is ready for every receiver.
      match s.phase c with
      | .waiting p => if 0 < (s.records.read p).closes then some (s.move c (.woken p)) else none
      | _ => none
    | .read c =>
      match s.phase c with
      | .woken p => some (s.move c (.joined p (.outcome (s.records.read p).err)))
      | _ => none
    | .abandon c =>
      match s.phase c with
      | .waiting p => (s.ctxErr c).map fun err => s.move c (.joined p (.ctxErr err))
      | _ => none

/-- What a step can do. -/
inductive FlightStep (s : Flights ε) : FlightLabel ε → Flights ε → Prop where
  | call {c} (h : s.phase c = .idle) : FlightStep s (.call c) (s.move c .called)
  | cancel {c err} (h : s.ctxErr c = none) :
      FlightStep s (.cancel c err) { s with ctxErr := Function.update s.ctxErr c (some err) }
  | join {c p} (h : s.phase c = .called) (hp : s.inflight = some p) :
      FlightStep s (.enter c) (s.move c (.waiting p))
  | lead {c} (h : s.phase c = .called) (hp : s.inflight = none) :
      FlightStep s (.enter c) (s.lead c)
  | finish {c now arrived p} (h : s.phase c = .running p) :
      FlightStep s (.finish c now arrived)
        { s.move c (.ended p (doFetch s.fetcher now arrived).err) with
          fetcher := (doFetch s.fetcher now arrived).fetcher }
  | clear {c p err} (h : s.phase c = .ended p err) :
      FlightStep s (.clear c) { s.move c (.cleared p err) with inflight := none }
  | write {c p err} (h : s.phase c = .cleared p err) :
      FlightStep s (.write c)
        ((s.move c (.written p err)).update p fun call => { call with err := err })
  | close {c p err} (h : s.phase c = .written p err) :
      FlightStep s (.close c)
        ((s.move c (.closed p err)).update p fun call => { call with closes := call.closes + 1 })
  | ret {c p err} (h : s.phase c = .closed p err) : FlightStep s (.ret c) (s.move c (.led p err))
  | receive {c p} (h : s.phase c = .waiting p) (hc : 0 < (s.records.read p).closes) :
      FlightStep s (.receive c) (s.move c (.woken p))
  | read {c p} (h : s.phase c = .woken p) :
      FlightStep s (.read c) (s.move c (.joined p (.outcome (s.records.read p).err)))
  | abandon {c p err} (h : s.phase c = .waiting p) (hctx : s.ctxErr c = some err) :
      FlightStep s (.abandon c) (s.move c (.joined p (.ctxErr err)))

variable {s s' : Flights ε} {l : FlightLabel ε}

theorem singleFlight_next_iff : singleFlight.next s l = some s' ↔ FlightStep s l s' := by
  constructor
  · intro h
    cases l with
    | cancel c err =>
      dsimp only [singleFlight] at h
      split at h
      · next hctx =>
        cases h
        exact .cancel hctx
      · cases h
    | enter c =>
      dsimp only [singleFlight] at h
      split at h
      · next hph =>
        split at h
        · next p hp =>
          cases h
          exact .join hph hp
        · next hp =>
          cases h
          exact .lead hph hp
      · cases h
    | receive c =>
      dsimp only [singleFlight] at h
      split at h
      · next hph =>
        split at h
        · next hc =>
          cases h
          exact .receive hph hc
        · cases h
      · cases h
    | abandon c =>
      dsimp only [singleFlight] at h
      split at h
      · next hph =>
        obtain ⟨err, hctx, rfl⟩ := Option.map_eq_some_iff.mp h
        exact .abandon hph hctx
      · cases h
    | call c | finish c now arrived | clear c | write c | close c | ret c | read c =>
      -- The other steps depend on the program point alone.
      dsimp only [singleFlight] at h
      split at h
      · next hph =>
        cases h
        constructor
        exact hph
      · cases h
  · intro h
    cases h with
    | cancel h => exact if_pos h
    | join h hp | lead h hp =>
      dsimp only [singleFlight]
      rw [h, hp]
    | receive h hc =>
      dsimp only [singleFlight]
      rw [h]
      exact if_pos hc
    | abandon h hctx =>
      dsimp only [singleFlight]
      rw [h, hctx]
      rfl
    | call h | finish h | clear h | write h | close h | ret h | read h =>
      dsimp only [singleFlight]
      rw [h]

/-! ## What steps leave alone -/

namespace FlightStep

section

variable (h : FlightStep s l s')

include h

theorem phase_of_ne {c : CallId} (hc : c ≠ l.actor) : s'.phase c = s.phase c := by
  cases h with
  | cancel h => rfl
  | _ => exact s.phase_move_ne _ hc

theorem ctxErr_keep {c : CallId} {err : CtxError} (hc : s.ctxErr c = some err) :
    s'.ctxErr c = some err := by
  cases h with
  | @cancel c₁ err₁ hnone =>
    have hne : c ≠ c₁ := by
      rintro rfl
      rw [hnone] at hc
      cases hc
    show update s.ctxErr c₁ (some err₁) c = some err
    rw [update_of_ne hne, hc]
  | _ => exact hc

/-- Only the end of its `doFetch` moves a call on that is there, and only that
end changes the fetcher. -/
theorem fetcher_keep (hl : ∀ c now arrived, l ≠ .finish c now arrived) :
    s'.fetcher = s.fetcher ∧ ∀ c p, s.phase c = .running p → s'.phase c = .running p := by
  refine ⟨?_, fun c p hc => ?_⟩
  · cases h with
    | finish h => exact absurd rfl (hl _ _ _)
    | _ => rfl
  · by_cases hne : c = l.actor
    · subst hne
      cases h with
      | cancel h => exact hc
      | finish h => exact absurd rfl (hl _ _ _)
      | call h | join h _ | lead h _ | clear h | write h | close h | ret h | receive h _ | read h
      | abandon h _ =>
        rw [FlightLabel.actor, h] at hc
        cases hc
    · rw [h.phase_of_ne hne, hc]

/-- Only the first critical section makes a leader. -/
theorem leads_cases :
    ((∀ c, (s'.phase c).leads = (s.phase c).leads) ∧ s'.records.size = s.records.size) ∨
      ∃ c, s.phase c = .called ∧ s.inflight = none ∧ s' = s.lead c := by
  cases h with
  | cancel h => exact .inl ⟨fun _ => rfl, rfl⟩
  | lead h hp => exact .inr ⟨_, h, hp, rfl⟩
  | write h | close h =>
    exact .inl ⟨Flights.apply_move Phase.leads (by rw [h]; rfl), Heap.size_write⟩
  | call h | join h _ | finish h | clear h | ret h | receive h _ | read h | abandon h _ =>
    exact .inl ⟨Flights.apply_move Phase.leads (by rw [h]; rfl), rfl⟩

theorem leads_keep {c : CallId} {p : Ref} (hc : (s.phase c).leads = some p) :
    (s'.phase c).leads = some p := by
  rcases h.leads_cases with ⟨hsame, -⟩ | ⟨c₁, hcalled, -, rfl⟩
  · rwa [hsame]
  · have hne : c ≠ c₁ := by
      rintro rfl
      rw [hcalled] at hc
      cases hc
    rwa [s.phase_lead_ne hne]

/-- Only the critical sections change what is registered. -/
theorem registers_cases :
    ((∀ c, (s'.phase c).registers = (s.phase c).registers) ∧ s'.inflight = s.inflight) ∨
      (∃ c, s.phase c = .called ∧ s.inflight = none ∧ s' = s.lead c) ∨
      ∃ c p err, s.phase c = .ended p err ∧
        s' = { s.move c (.cleared p err) with inflight := none } := by
  cases h with
  | cancel h => exact .inl ⟨fun _ => rfl, rfl⟩
  | lead h hp => exact .inr (.inl ⟨_, h, hp, rfl⟩)
  | clear h => exact .inr (.inr ⟨_, _, _, h, rfl⟩)
  | call h | join h _ | finish h | write h | close h | ret h | receive h _ | read h
  | abandon h _ =>
    exact .inl ⟨Flights.apply_move Phase.registers (by rw [h]; rfl), rfl⟩

/-- A record changes only at the hands of its leader, between the second
critical section and the close. -/
theorem read_cases {p : Ref} (hp : p < s.records.size) : s'.records.read p = s.records.read p ∨
      ∃ err, s.phase l.actor = .cleared p err ∨ s.phase l.actor = .written p err := by
  cases h with
  | lead h _ => exact .inl (Heap.read_alloc_of_lt hp)
  | @write c q err h =>
    by_cases hq : p = q
    · subst hq
      exact .inr ⟨err, .inl h⟩
    · exact .inl (Heap.read_write_ne hq)
  | @close c q err h =>
    by_cases hq : p = q
    · subst hq
      exact .inr ⟨err, .inr h⟩
    · exact .inl (Heap.read_write_ne hq)
  | _ => exact .inl rfl

end

end FlightStep

/-! ## The invariant -/

/-- Each record is led by exactly one call. -/
structure Flights.Leads (s : Flights ε) : Prop where
  lt : ∀ {c p}, (s.phase c).leads = some p → p < s.records.size
  inj : ∀ {c c' p}, (s.phase c).leads = some p → (s.phase c').leads = some p → c = c'
  onto : ∀ {p}, p < s.records.size → ∃ c, (s.phase c).leads = some p

theorem Flights.Leads.step (hs : s.Leads) (h : FlightStep s l s') : s'.Leads := by
  rcases h.leads_cases with ⟨hsame, hsize⟩ | ⟨c, -, -, rfl⟩
  · constructor
    · intro c p hc
      rw [hsize]
      exact hs.lt (hsame c ▸ hc)
    · intro c c' p hc hc'
      exact hs.inj (hsame c ▸ hc) (hsame c' ▸ hc')
    · intro p hp
      obtain ⟨c, hc⟩ := hs.onto (hsize ▸ hp)
      exact ⟨c, hsame c ▸ hc⟩
  · -- The new record is led by the call that made it, the others as before.
    have hsize : (s.lead c).records.size = s.records.size + 1 := Heap.size_alloc
    have hself : ∀ {p}, ((s.lead c).phase c).leads = some p → p = s.records.size := by
      intro p hp
      rw [s.phase_lead_self] at hp
      exact (Option.some.inj hp).symm
    have hother : ∀ {c' p}, c' ≠ c → ((s.lead c).phase c').leads = some p →
        (s.phase c').leads = some p := by
      intro c' p hne hc'
      rwa [s.phase_lead_ne hne] at hc'
    constructor
    · intro c' p hc'
      rw [hsize]
      by_cases hne : c' = c
      · subst hne
        exact Nat.lt_succ_of_le (Nat.le_of_eq (hself hc'))
      · exact Nat.lt_succ_of_lt (hs.lt (hother hne hc'))
    · intro c₁ c₂ p h₁ h₂
      by_cases hne₁ : c₁ = c
      · by_cases hne₂ : c₂ = c
        · rw [hne₁, hne₂]
        · subst hne₁
          exact absurd (hself h₁) (Nat.ne_of_lt (hs.lt (hother hne₂ h₂)))
      · by_cases hne₂ : c₂ = c
        · subst hne₂
          exact absurd (hself h₂) (Nat.ne_of_lt (hs.lt (hother hne₁ h₁)))
        · exact hs.inj (hother hne₁ h₁) (hother hne₂ h₂)
    · intro p hp
      rcases Nat.lt_succ_iff_lt_or_eq.mp (hsize ▸ hp) with hlt | rfl
      · obtain ⟨c', hc'⟩ := hs.onto hlt
        exact ⟨c', h.leads_keep hc'⟩
      · exact ⟨c, by rw [s.phase_lead_self]; rfl⟩

/-- The pointer names the record of the call that is in `doFetch` or has not
unregistered yet. -/
def Flights.Registered (s : Flights ε) : Prop :=
  ∀ p, s.inflight = some p ↔ ∃ c, (s.phase c).registers = some p

theorem Flights.Registered.step (hs : s.Registered) (hleads : s.Leads) (h : FlightStep s l s') :
    s'.Registered := by
  intro p
  rcases h.registers_cases with ⟨hsame, hinf⟩ | ⟨c, -, hnone, rfl⟩ | ⟨c, q, err, hended, rfl⟩
  · rw [hinf, hs p]
    simp only [hsame]
  · -- Nothing was registered before.
    show some s.records.size = some p ↔ _
    constructor
    · intro heq
      cases heq
      exact ⟨c, by rw [s.phase_lead_self]; rfl⟩
    · rintro ⟨c', hc'⟩
      by_cases hne : c' = c
      · subst hne
        rwa [s.phase_lead_self] at hc'
      · rw [s.phase_lead_ne hne] at hc'
        have hsome := (hs p).mpr ⟨c', hc'⟩
        rw [hnone] at hsome
        cases hsome
  · -- Nothing else was registered before.
    refine iff_of_false (fun heq => by cases heq) ?_
    rintro ⟨c', hc'⟩
    have hreg : ((s.move c (.cleared q err)).phase c').registers = some p := hc'
    by_cases hne : c' = c
    · subst hne
      rw [s.phase_move_self] at hreg
      cases hreg
    · rw [s.phase_move_ne _ hne] at hreg
      have hq : s.inflight = some q := (hs q).mpr ⟨c, by rw [hended]; rfl⟩
      have hp : s.inflight = some p := (hs p).mpr ⟨c', hreg⟩
      obtain rfl : q = p := Option.some.inj (hq.symm.trans hp)
      exact hne (hleads.inj (Phase.leads_of_registers hreg) (by rw [hended]; rfl))

section

variable (f : Fetcher)

/-- The call `c` arrived while the `doFetch` of `c'` was registered. -/
def JoinedAt (hist : List (FlightLabel ε)) (c c' : CallId) (p : Ref) : Prop :=
  ∃ pre post s, hist = pre ++ .enter c :: post ∧
    singleFlight.exec (noFlights f) pre = some s ∧
    s.inflight = some p ∧ (s.phase c').registers = some p

/-- The `doFetch` of `c`, registered as `p`, has returned `err`. -/
def FinishedAt (hist : List (FlightLabel ε)) (c : CallId) (p : Ref)
    (err : Option (FetchError ε)) : Prop :=
  ∃ pre post s now arrived, hist = pre ++ .finish c now arrived :: post ∧
    singleFlight.exec (noFlights f) pre = some s ∧
    s.phase c = .running p ∧ (doFetch s.fetcher now arrived).err = err

/-- What holds of a call at a program point, and of the record it leads. -/
def Standing (hist : List (FlightLabel ε)) (s : Flights ε) (c : CallId) : Phase ε → Prop
  | .idle | .called => True
  | .waiting p => ∃ c', JoinedAt f hist c c' p ∧ (s.phase c').leads = some p
  | .woken p => ∃ c', JoinedAt f hist c c' p ∧ (s.phase c').leads = some p ∧
      0 < (s.records.read p).closes
  | .joined p (.outcome err) => ∃ c', JoinedAt f hist c c' p ∧ FinishedAt f hist c' p err
  | .joined _ (.ctxErr err) => s.ctxErr c = some err
  | .running p => (s.records.read p).closes = 0
  | .ended p err | .cleared p err => (s.records.read p).closes = 0 ∧ FinishedAt f hist c p err
  | .written p err => s.records.read p = { closes := 0, err := err } ∧ FinishedAt f hist c p err
  | .closed p err | .led p err =>
      s.records.read p = { closes := 1, err := err } ∧ FinishedAt f hist c p err

structure FlightInv (hist : List (FlightLabel ε)) (s : Flights ε) : Prop where
  leads : s.Leads
  registered : s.Registered
  standing : ∀ c, Standing f hist s c (s.phase c)

end

variable {f : Fetcher} {hist : List (FlightLabel ε)} {c c' : CallId} {p : Ref}

theorem JoinedAt.snoc (h : JoinedAt f hist c c' p) (l : FlightLabel ε) :
    JoinedAt f (hist ++ [l]) c c' p := by
  obtain ⟨pre, post, s, rfl, hrest⟩ := h
  exact ⟨pre, post ++ [l], s, by simp, hrest⟩

theorem FinishedAt.snoc {err : Option (FetchError ε)} (h : FinishedAt f hist c p err)
    (l : FlightLabel ε) : FinishedAt f (hist ++ [l]) c p err := by
  obtain ⟨pre, post, s, now, arrived, rfl, hrest⟩ := h
  exact ⟨pre, post ++ [l], s, now, arrived, by simp, hrest⟩

/-- Where a call stands is not affected by a step that leaves its record and
all leaders alone. -/
theorem Standing.frame {ph : Phase ε} (h : Standing f hist s c ph)
    (hleads : ∀ c' p, (s.phase c').leads = some p → (s'.phase c').leads = some p)
    (hrec : ∀ p, ph.leads = some p ∨ ph = .woken p → s'.records.read p = s.records.read p)
    (hctx : ∀ err, s.ctxErr c = some err → s'.ctxErr c = some err) :
    Standing f (hist ++ [l]) s' c ph := by
  cases ph with
  | idle => trivial
  | called => trivial
  | waiting p =>
    obtain ⟨c', hj, hl⟩ := h
    exact ⟨c', hj.snoc l, hleads c' p hl⟩
  | woken p =>
    obtain ⟨c', hj, hl, hc⟩ := h
    refine ⟨c', hj.snoc l, hleads c' p hl, ?_⟩
    rwa [hrec p (.inr rfl)]
  | joined p r =>
    cases r with
    | outcome err =>
      obtain ⟨c', hj, hf⟩ := h
      exact ⟨c', hj.snoc l, hf.snoc l⟩
    | ctxErr err => exact hctx err h
  | running p =>
    show (s'.records.read p).closes = 0
    rw [hrec p (.inl rfl)]
    exact h
  | ended p err | cleared p err | written p err | closed p err | led p err =>
    refine ⟨?_, h.2.snoc l⟩
    rw [hrec p (.inl rfl)]
    exact h.1

/-- A record is open, or closed once and holds the error of its leader's
`doFetch`. -/
theorem FlightInv.record_cases (hinv : FlightInv f hist s) (hl : (s.phase c).leads = some p) :
    (s.records.read p).closes = 0 ∨
      (s.records.read p).closes = 1 ∧ FinishedAt f hist c p (s.records.read p).err := by
  have hst := hinv.standing c
  cases hph : s.phase c with
  | running q =>
    rw [hph] at hl hst
    cases hl
    exact .inl hst
  | ended q err | cleared q err =>
    rw [hph] at hl hst
    cases hl
    exact .inl hst.1
  | written q err =>
    rw [hph] at hl hst
    cases hl
    rw [hst.1]
    exact .inl rfl
  | closed q err | led q err =>
    rw [hph] at hl hst
    cases hl
    rw [hst.1]
    exact .inr ⟨rfl, hst.2⟩
  | _ =>
    rw [hph] at hl
    cases hl

/-- The calls that do not take the step stand as before. -/
theorem FlightInv.standing_of_ne (hinv : FlightInv f hist s) (h : FlightStep s l s')
    (hne : c ≠ l.actor) : Standing f (hist ++ [l]) s' c (s'.phase c) := by
  have hleads : ∀ c' p, (s.phase c').leads = some p → (s'.phase c').leads = some p :=
    fun _ _ => h.leads_keep
  rw [h.phase_of_ne hne]
  refine (hinv.standing c).frame hleads ?_ fun err => h.ctxErr_keep
  intro p hp
  rcases hp with hlead | hwoken
  · -- A record that the call leads changes only at its own hands.
    rcases h.read_cases (hinv.leads.lt hlead) with heq | ⟨err, hact | hact⟩
    · exact heq
    · exact absurd (hinv.leads.inj hlead (by rw [hact]; rfl)) hne
    · exact absurd (hinv.leads.inj hlead (by rw [hact]; rfl)) hne
  · -- A record whose channel is closed does not change any more.
    have hst := hinv.standing c
    rw [hwoken] at hst
    obtain ⟨c', -, hlead, hclosed⟩ := hst
    have hact := hinv.standing l.actor
    rcases h.read_cases (hinv.leads.lt hlead) with heq | ⟨err, hph | hph⟩
    · exact heq
    · rw [hph] at hact
      exact absurd hact.1 hclosed.ne'
    · rw [hph] at hact
      rw [hact.1] at hclosed
      exact absurd hclosed (Nat.lt_irrefl 0)

theorem standing_of_phase {c : CallId} {ph : Phase ε} (hph : s.phase c = ph)
    (h : Standing f hist s c ph) : Standing f hist s c (s.phase c) := hph ▸ h

section

variable (hinv : FlightInv f hist s) (hexec : singleFlight.exec (noFlights f) hist = some s)
  (h : FlightStep s l s')

include hinv hexec h

/-- The call that takes the step stands where its new program point says. -/
theorem FlightInv.standing_actor : Standing f (hist ++ [l]) s' l.actor (s'.phase l.actor) := by
  have hst := hinv.standing l.actor
  have hleads : ∀ c' p, (s.phase c').leads = some p → (s'.phase c').leads = some p :=
    fun _ _ => h.leads_keep
  have hctx : ∀ err, s.ctxErr l.actor = some err → s'.ctxErr l.actor = some err :=
    fun _ => h.ctxErr_keep
  cases h with
  | call h => exact standing_of_phase (s.phase_move_self ..) trivial
  | cancel h => exact hst.frame hleads (fun _ _ => rfl) hctx
  | @join c p h hp =>
    obtain ⟨c', hreg⟩ := (hinv.registered p).mp hp
    exact standing_of_phase (s.phase_move_self ..)
      ⟨c', ⟨hist, [], s, rfl, hexec, hp, hreg⟩, hleads c' p (Phase.leads_of_registers hreg)⟩
  | @lead c h hp =>
    refine standing_of_phase (s.phase_move_self ..) ?_
    show ((s.records.alloc {}).read s.records.size).closes = 0
    rw [Heap.read_alloc_size]
  | @finish c now arrived p h =>
    rw [FlightLabel.actor, h] at hst
    exact standing_of_phase (s.phase_move_self ..)
      ⟨hst, hist, [], s, now, arrived, rfl, hexec, h, rfl⟩
  | clear h | ret h =>
    rw [FlightLabel.actor, h] at hst
    exact standing_of_phase (s.phase_move_self ..) ⟨hst.1, hst.2.snoc _⟩
  | @write c p err h | @close c p err h =>
    rw [FlightLabel.actor, h] at hst
    have hlt : p < s.records.size := hinv.leads.lt (c := c) (by rw [h]; rfl)
    refine standing_of_phase (s.phase_move_self ..) ⟨?_, hst.2.snoc _⟩
    refine (Heap.read_write_self hlt).trans ?_
    dsimp only [Flights.move]
    rw [hst.1]
  | @receive c p h hc =>
    rw [FlightLabel.actor, h] at hst
    obtain ⟨c', hj, hl⟩ := hst
    exact standing_of_phase (s.phase_move_self ..) ⟨c', hj.snoc _, hleads c' p hl, hc⟩
  | @read c p h =>
    rw [FlightLabel.actor, h] at hst
    obtain ⟨c', hj, hl, hc⟩ := hst
    rcases hinv.record_cases hl with hopen | ⟨-, hf⟩
    · exact absurd hopen hc.ne'
    · exact standing_of_phase (s.phase_move_self ..) ⟨c', hj.snoc _, hf.snoc _⟩
  | abandon h hdone => exact standing_of_phase (s.phase_move_self ..) hdone

theorem FlightInv.step :
    FlightInv f (hist ++ [l]) s' where
  leads := hinv.leads.step h
  registered := hinv.registered.step hinv.leads h
  standing c := by
    by_cases hc : c = l.actor
    · subst hc
      exact hinv.standing_actor hexec h
    · exact hinv.standing_of_ne h hc

end

/-- The invariant holds after every execution. -/
theorem flightInv_exec {ls : List (FlightLabel ε)}
    (h : singleFlight.exec (noFlights f) ls = some s) : FlightInv f ls s := by
  refine singleFlight.exec_history ?_ ?_ ls h
  · constructor
    · constructor
      · intro c p hc
        cases hc
      · intro c c' p hc
        cases hc
      · intro p hp
        exact absurd hp (Nat.not_lt_zero p)
    · intro p
      refine iff_of_false (fun hp => by cases hp) ?_
      rintro ⟨c, hc⟩
      cases hc
    · intro c
      trivial
  · intro hist s l s' hexec hinv hnext
    exact hinv.step hexec (singleFlight_next_iff.mp hnext)

/-! ## Safety -/

/-- At most one `doFetch` runs. -/
theorem Flights.Leads.running_unique (hleads : s.Leads) (hreg : s.Registered) {p' : Ref}
    (h : s.phase c = .running p) (h' : s.phase c' = .running p') : c = c' := by
  have hp : s.inflight = some p := (hreg p).mpr ⟨c, by rw [h]; rfl⟩
  have hp' : s.inflight = some p' := (hreg p').mpr ⟨c', by rw [h']; rfl⟩
  obtain rfl : p = p' := Option.some.inj (hp.symm.trans hp')
  exact hleads.inj (by rw [h]; rfl) (by rw [h']; rfl)

/-- No channel is closed twice. -/
theorem FlightInv.closes_le_one (hinv : FlightInv f hist s) (p : Ref) :
    (s.records.read p).closes ≤ 1 := by
  rcases Nat.lt_or_ge p s.records.size with hlt | hge
  · obtain ⟨c, hc⟩ := hinv.leads.onto hlt
    rcases hinv.record_cases hc with hopen | ⟨hclosed, -⟩
    · exact Nat.le_trans (Nat.le_of_eq hopen) (Nat.zero_le 1)
    · exact Nat.le_of_eq hclosed
  · rw [Heap.read_of_size_le hge]
    exact Nat.zero_le 1

/-- Where the value comes from that a call returns. -/
theorem FlightInv.result_cases (hinv : FlightInv f hist s) {r : Returned ε}
    (h : (s.phase c).result = some r) : (∃ p err, r = .outcome err ∧ FinishedAt f hist c p err) ∨
    (∃ c' p err, r = .outcome err ∧ JoinedAt f hist c c' p ∧ FinishedAt f hist c' p err) ∨
    ∃ err, r = .ctxErr err ∧ s.ctxErr c = some err := by
  have hst := hinv.standing c
  cases hph : s.phase c with
  | joined p r' =>
    rw [hph] at h hst
    cases h
    cases r with
    | outcome err =>
      obtain ⟨c', hj, hf⟩ := hst
      exact .inr (.inl ⟨c', p, err, rfl, hj, hf⟩)
    | ctxErr err => exact .inr (.inr ⟨err, rfl, hst⟩)
  | led p err =>
    rw [hph] at h hst
    cases h
    exact .inl ⟨p, err, rfl, hst.2⟩
  | _ =>
    rw [hph] at h
    cases h

end Otedama.Rates
