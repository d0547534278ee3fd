import Mathlib.Algebra.Order.BigOperators.Group.Finset
import Otedama.Engine.FanIn

/-! # Nothing is lost in the fan-in

Progress of `fanIn`, for runs that are fair to its goroutines.

* **Nobody cancels**: once the inputs are closed, every step uses up some
  of the work that is left (`State.left`), and as long as the consumer has
  not seen the end somebody can move. So the consumer sees the end, and
  by then it has received everything.
* **Somebody cancels**: a forwarder is never blocked, since the case
  `<-ctx.Done()` is ready in both `select` statements. It ends when it
  takes this case; if it never does, the other cases must stay ready, for
  which the consumer has to go on receiving. -/

namespace Otedama.Engine.FanIn

open Interleaving Function List GoChan

variable {T : Type*} {n cap : Nat} {s s' : State T n cap} {l : Label T n} {i : Fin n}

/-! ## Reachable states -/

theorem invariants_exec {ls : List (Label T n)} (h : (fanIn T n cap).exec start ls = some s) :
    Control s ∧ Flow s := by
  refine (fanIn T n cap).exec_history (P := fun _ s => Control s ∧ Flow s)
    ⟨control_start, flow_start⟩ ?_ ls h
  rintro hist s l s' - ⟨hctrl, hflow⟩ hnext
  have hstep := step_of_next hnext
  exact ⟨hctrl.step hstep, hflow.step hctrl hstep⟩

theorem invariants_run (r : (fanIn T n cap).Run start) (k : Nat) :
    Control (r.state k) ∧ Flow (r.state k) := by
  obtain ⟨ls, hls⟩ := r.exists_exec k
  exact invariants_exec hls

theorem Flow.received (h : Flow s) :
    InterleavesPrefixes (fun i => (s.inputs i).sent) s.received := by
  obtain ⟨ms, hms, hcar⟩ := h
  exact InterleavesPrefixes.left ⟨ms, hms, fun i => (hcar i).prefix_sent⟩

/-- Who sees the end has received everything, if nobody cancelled. -/
theorem Flow.received_all (h : Flow s) (hctrl : Control s) (hctx : s.ctxDone = false)
    (hended : s.ended = true) : Interleaves (fun i => (s.inputs i).sent) s.received := by
  obtain ⟨ms, hms, hcar⟩ := h
  obtain ⟨hclosed, hnil⟩ := hctrl.ended hended
  refine ⟨ms, by rw [hms, hnil, append_nil], fun i => ?_⟩
  have hi := hcar i
  rw [hctrl.waited (.inr (hctrl.closed.mp hclosed)) i] at hi
  exact (hi.2 hctx).1

/-- The steps of a process. -/
def StepOf (p : Process n) (l : Label T n) : Prop := l.process = some p

/-! ## Nobody cancels -/

/-- The work left for a value that is pending: it is received, sent on and
received by the consumer. -/
def Forwarder.left (pending : Nat) : Forwarder T → Nat
  | .unstarted => 3 * pending + 3
  | .receiving => 3 * pending + 2
  | .sending _ => 3 * pending + 4
  | .returning => 1
  | .done => 0

def Closer.left : Closer → Nat
  | .unstarted => 3
  | .waiting => 2
  | .waited => 1
  | .closed => 0

/-- The work left for the forwarders, and with their values. -/
def work (fs : Fin n → Forwarder T) (inputs : Fin n → Input T) : Nat :=
  ∑ i, (fs i).left (inputs i).pending.length

def State.left (s : State T n cap) : Nat :=
  work s.forwarder s.inputs + s.out.buf.length + s.closer.left + (!s.ended).toNat

section

variable (fs : Fin n → Forwarder T) (inputs : Fin n → Input T) (i : Fin n) (f : Forwarder T)

/-- A step of one forwarder changes the work by its own part. -/
theorem work_take (inp : Input T) : work (update fs i f) (update inputs i inp) +
        (fs i).left (inputs i).pending.length = work fs inputs + f.left inp.pending.length := by
  unfold work
  rw [sum_change (f := fun j => (fs j).left (inputs j).pending.length) i fun j hj => ?_,
    update_self, update_self]
  rw [update_of_ne hj, update_of_ne hj]

theorem work_move : work (update fs i f) inputs + (fs i).left (inputs i).pending.length =
      work fs inputs + f.left (inputs i).pending.length := by
  have h := work_take fs inputs i f (inputs i)
  rwa [update_eq_self] at h

end

/-- Once the inputs are closed every step lowers the work that is left. -/
theorem left_lt (hctrl : Control s) (hctx : s'.ctxDone = false) (hpanic : s'.panicked = false)
    (hclosed : ∀ i, (s.inputs i).closed = true) (hstep : Step s l s') : s'.left < s.left := by
  unfold State.left
  cases hstep with
  | @produce i v hopen | @closeInput i hopen =>
    rw [hclosed i] at hopen
    cases hopen
  | cancel _ => cases hctx
  | sendPanic _ _ | closePanic _ _ => cases hpanic
  | quit _ hdone =>
    rw [show s.ctxDone = false from hctx] at hdone
    cases hdone
  | spawn hlt =>
    have hwork := work_move s.forwarder s.inputs ⟨s.spawned, hlt⟩ .receiving
    rw [(hctrl.spawned ⟨s.spawned, hlt⟩).mpr le_rfl] at hwork
    simp only [State.move, Forwarder.left] at hwork ⊢
    omega
  | launch hall hc =>
    simp only [hc, Closer.left]
    omega
  | @take i v rest hf hp =>
    have hwork := work_take s.forwarder s.inputs i (.sending v) { s.inputs i with pending := rest }
    rw [hf, hp] at hwork
    simp only [State.move, State.setInput, Forwarder.left, length_cons] at hwork ⊢
    omega
  | @eof i hf hp hc =>
    have hwork := work_move s.forwarder s.inputs i .returning
    rw [hf] at hwork
    simp only [State.move, Forwarder.left] at hwork ⊢
    omega
  | @send i v c hf hs =>
    obtain ⟨-, -, hbuf, -⟩ := send_eq_sent.mp hs
    have hwork := work_move s.forwarder s.inputs i .receiving
    rw [hf] at hwork
    simp only [State.move, Forwarder.left, hbuf, length_append, length_singleton]
      at hwork ⊢
    omega
  | @wgDone i hf =>
    have hwork := work_move s.forwarder s.inputs i .done
    rw [hf] at hwork
    simp only [State.move, Forwarder.left] at hwork ⊢
    omega
  | wait hc _ =>
    simp only [hc, Closer.left]
    omega
  | close hc hclose =>
    simp only [hc, Closer.left, (close_eq_some.mp hclose).2.1]
    omega
  | recv _ hr =>
    simp only [(recv_eq_got.mp hr).1, length_cons]
    omega
  | recvEnd _ _ hended =>
    simp [hended]

theorem enabled_of_step {p : Process n} (h : Step s l s') (hl : StepOf p l) :
    (fanIn T n cap).Enabled (StepOf p) s :=
  ⟨l, hl, by rw [next_of_step h]; rfl⟩

/-- The consumer can receive a value. -/
theorem enabled_recv (hc : s.closer ≠ .unstarted) (hbuf : s.out.buf ≠ []) :
    (fanIn T n cap).Enabled (StepOf .consumer) s := by
  cases hr : s.out.recv with
  | got v c => exact enabled_of_step (.recv hc hr) rfl
  | empty => exact absurd (recv_eq_empty.mp hr).1 hbuf
  | closed => exact absurd (recv_eq_closed.mp hr).1 hbuf

/-- A forwarder whose input is closed can move, or the consumer can, to make
room. -/
theorem enabled_forwarder (hcap : 0 < cap) (hc : s.closer ≠ .unstarted)
    (hclosed : (s.inputs i).closed = true) (hstarted : s.forwarder i ≠ .unstarted)
    (hdone : s.forwarder i ≠ .done) : ∃ p, (fanIn T n cap).Enabled (StepOf p) s := by
  cases hf : s.forwarder i with
  | unstarted => exact absurd hf hstarted
  | done => exact absurd hf hdone
  | receiving =>
    cases hp : (s.inputs i).pending with
    | nil => exact ⟨_, enabled_of_step (.eof hf hp hclosed) rfl⟩
    | cons v rest => exact ⟨_, enabled_of_step (.take hf hp) rfl⟩
  | sending v =>
    cases hs : s.out.send v with
    | sent c => exact ⟨_, enabled_of_step (.send hf hs) rfl⟩
    | panic => exact ⟨_, enabled_of_step (.sendPanic hf hs) rfl⟩
    | full =>
      refine ⟨.consumer, enabled_recv hc fun hnil => ?_⟩
      have hlen := (send_eq_full.mp hs).2
      rw [hnil] at hlen
      exact absurd hlen (Nat.ne_of_lt hcap)
  | returning => exact ⟨_, enabled_of_step (.wgDone hf) rfl⟩

/-- Once all forwarders are done, the closer can move, or the consumer sees
what is left in the output. -/
theorem enabled_closer (hctrl : Control s) (hc : s.closer ≠ .unstarted)
    (hdone : ∀ i, s.forwarder i = .done) (hended : s.ended = false) :
    ∃ p, (fanIn T n cap).Enabled (StepOf p) s := by
  cases hcase : s.closer with
  | unstarted => exact absurd hcase hc
  | waiting =>
    have hwg : s.wg = 0 := by
      rw [hctrl.wg]
      exact Finset.sum_eq_zero fun i _ => by rw [hdone i]; rfl
    exact ⟨_, enabled_of_step (.wait hcase hwg) rfl⟩
  | waited =>
    cases hclose : s.out.close with
    | some c => exact ⟨_, enabled_of_step (.close hcase hclose) rfl⟩
    | none => exact ⟨_, enabled_of_step (.closePanic hcase hclose) rfl⟩
  | closed =>
    by_cases hnil : s.out.buf = []
    · have hr : s.out.recv = .closed := recv_eq_closed.mpr ⟨hnil, hctrl.closed.mpr hcase⟩
      exact ⟨_, enabled_of_step (.recvEnd hc hr hended) rfl⟩
    · exact ⟨_, enabled_recv hc hnil⟩

/-- Somebody can move until the consumer has seen the end. -/
theorem exists_enabled (hctrl : Control s) (hcap : 0 < cap)
    (hclosed : ∀ i, (s.inputs i).closed = true) (hended : s.ended = false) :
    ∃ p, (fanIn T n cap).Enabled (StepOf p) s := by
  by_cases hlt : s.spawned < n
  · exact ⟨_, enabled_of_step (.spawn hlt) rfl⟩
  · by_cases hc : s.closer = .unstarted
    · exact ⟨_, enabled_of_step (.launch (Nat.le_of_not_lt hlt) hc) rfl⟩
    · by_cases hdone : ∀ i, s.forwarder i = .done
      · exact enabled_closer hctrl hc hdone hended
      · obtain ⟨i, hi⟩ := not_forall.mp hdone
        exact enabled_forwarder hcap hc (hclosed i) (hctrl.started hc i) hi

/-- An input that is closed stays closed. -/
theorem closed_step (h : (s.inputs i).closed = true) (hstep : Step s l s') :
    (s'.inputs i).closed = true := by
  have hset : ∀ j inp, (j = i → inp.closed = true) → (update s.inputs j inp i).closed = true := by
    intro j inp hinp
    by_cases hj : i = j
    · subst hj
      rw [update_self]
      exact hinp rfl
    · rw [update_of_ne hj]
      exact h
  cases hstep with
  | produce hopen =>
    refine hset _ _ fun hj => ?_
    rw [hj, h] at hopen
    cases hopen
  | closeInput hopen => exact hset _ _ fun _ => rfl
  | take _ _ => exact hset _ _ fun hj => hj ▸ h
  | _ => exact h

theorem closed_run (r : (fanIn T n cap).Run start) {k j : Nat} (hle : k ≤ j)
    (h : ((r.state k).inputs i).closed = true) : ((r.state j).inputs i).closed = true :=
  r.invariant (P := fun s => (s.inputs i).closed = true)
    (fun _ _ _ hs hnext => closed_step hs (step_of_next hnext)) hle h

/-- If nobody cancels and the inputs are closed, the consumer sees the end. -/
theorem ends_of_closed (hcap : 0 < cap) (r : (fanIn T n cap).Run start)
    (hfair : ∀ p, r.Fair (StepOf p)) (hctx : ∀ k, (r.state k).ctxDone = false) {k : Nat}
    (hclosed : ∀ i, ((r.state k).inputs i).closed = true) :
    ∃ j, k ≤ j ∧ (r.state j).ended = true := by
  by_cases hended : (r.state k).ended = true
  · exact ⟨k, le_rfl, hended⟩
  · refine r.leadsTo_of_processes hfair (μ := State.left)
      (I := fun s => Control s ∧ s.ctxDone = false)
      (P := fun s => (∀ i, (s.inputs i).closed = true) ∧ s.ended = false)
      (Q := fun s => s.ended = true)
      (fun j _ => ⟨(invariants_run r j).1, hctx j⟩) ?_ ?_
      ⟨hclosed, Bool.eq_false_iff.mpr hended⟩
    · rintro s l s' ⟨hctrl, -⟩ ⟨hctrl', hctx'⟩ ⟨hcl, hend⟩ hnext
      have hstep := step_of_next hnext
      by_cases hend' : s'.ended = true
      · exact .inl hend'
      · exact .inr ⟨⟨fun i => closed_step (hcl i) hstep, Bool.eq_false_iff.mpr hend'⟩,
          left_lt hctrl hctx' hctrl'.panicked hcl hstep⟩
    · rintro s ⟨hctrl, -⟩ ⟨hcl, hend⟩
      exact exists_enabled hctrl hcap hcl hend

/-! ## Somebody cancels -/

/-- A cancelled context stays cancelled. -/
theorem ctxDone_step (h : s.ctxDone = true) (hstep : Step s l s') : s'.ctxDone = true := by
  cases hstep with
  | cancel hctx => rfl
  | _ => exact h

/-- A forwarder is never blocked once the context is cancelled. -/
theorem enabled_of_ctxDone (hctx : s.ctxDone = true) (hstarted : s.forwarder i ≠ .unstarted)
    (hdone : s.forwarder i ≠ .done) : (fanIn T n cap).Enabled (StepOf (.forwarder i)) s := by
  cases hf : s.forwarder i with
  | unstarted => exact absurd hf hstarted
  | done => exact absurd hf hdone
  | receiving | sending v => exact enabled_of_step (.quit (by rw [hf]; rfl) hctx) rfl
  | returning => exact enabled_of_step (.wgDone hf) rfl

/-- A forwarder that has been started is moved by its own steps only. -/
theorem forwarder_of_not_own (hctrl : Control s) (hstarted : s.forwarder i ≠ .unstarted)
    (hstep : Step s l s') (hl : ¬ StepOf (.forwarder i) l) : s'.forwarder i = s.forwarder i := by
  have hmove : ∀ {j : Fin n} {f : Forwarder T}, i ≠ j →
      update s.forwarder j f i = s.forwarder i := fun hne => update_of_ne hne ..
  have hne : ∀ {j : Fin n}, ¬ (some (.forwarder j) : Option (Process n)) = some (.forwarder i) →
      i ≠ j := by
    rintro j hj rfl
    exact hj rfl
  cases hstep with
  | spawn hlt =>
    refine hmove fun heq => hstarted ?_
    rw [heq]
    exact (hctrl.spawned _).mpr le_rfl
  | take _ _ | eof _ _ _ | send _ _ | quit _ _ | wgDone _ => exact hmove (hne hl)
  | _ => rfl

/-- Started and not done yet. -/
def Forwarder.Running (f : Forwarder T) : Prop := f ≠ .unstarted ∧ f ≠ .done

/-- How many own steps the forwarder can take while the output has the room. -/
def Forwarder.stepsLeft (room : Nat) : Forwarder T → Nat
  | .receiving => 2 * room + 3
  | .sending _ => 2 * room + 2
  | .returning => 1
  | _ => 0

theorem Forwarder.stepsLeft_mono {room room' : Nat} (h : room' ≤ room) (f : Forwarder T) :
    f.stepsLeft room' ≤ f.stepsLeft room := by
  cases f with
  | receiving | sending v =>
    simp only [Forwarder.stepsLeft]
    omega
  | _ => exact le_rfl

/-- Unless the consumer receives, the buffer does not become shorter. -/
theorem length_buf_le (hstep : Step s l s') (hrecv : s'.received = s.received) :
    s.out.buf.length ≤ s'.out.buf.length := by
  cases hstep with
  | send _ hs =>
    obtain ⟨-, -, hbuf, -⟩ := send_eq_sent.mp hs
    simp [hbuf]
  | close _ hclose => exact Nat.le_of_eq (by simp [(close_eq_some.mp hclose).2.1])
  | recv _ _ => simp at hrecv
  | _ => exact le_rfl

/-- Where a forwarder goes by an own step. -/
theorem own_step (hctrl : Control s) (hstep : Step s l s') (hl : StepOf (.forwarder i) l) :
    (∃ v, s.forwarder i = .receiving ∧ s'.forwarder i = .sending v ∧ s'.out = s.out) ∨
    (∃ v, s.forwarder i = .sending v ∧ s'.forwarder i = .receiving ∧
      s.out.buf.length < cap ∧ s'.out.buf.length = s.out.buf.length + 1) ∨
    ((s.forwarder i).selects = true ∧ s'.forwarder i = .returning) ∨
    (s.forwarder i = .returning ∧ s'.forwarder i = .done) := by
  cases hstep with
  | @take j v rest hf _ =>
    cases hl
    exact .inl ⟨v, hf, update_self .., rfl⟩
  | @eof j hf _ _ =>
    cases hl
    exact .inr (.inr (.inl ⟨by rw [hf]; rfl, update_self ..⟩))
  | @send j v c hf hs =>
    cases hl
    obtain ⟨-, hroom, hbuf, -⟩ := send_eq_sent.mp hs
    refine .inr (.inl ⟨v, hf, update_self .., hroom, ?_⟩)
    show c.buf.length = s.out.buf.length + 1
    rw [hbuf, length_append, length_singleton]
  | sendPanic hf hs =>
    have hdone := hctrl.waited (.inr (hctrl.closed.mp (send_eq_panic.mp hs)))
    rw [hdone] at hf
    cases hf
  | @quit j hf _ =>
    cases hl
    exact .inr (.inr (.inl ⟨hf, update_self ..⟩))
  | @wgDone j hf =>
    cases hl
    exact .inr (.inr (.inr ⟨hf, update_self ..⟩))
  | _ => cases hl

/-- Unless the consumer receives, a running forwarder has fewer steps left
after each of its own. -/
theorem running_step (hctrl : Control s) (hrun : (s.forwarder i).Running) (hstep : Step s l s')
    (hrecv : s'.received = s.received) : s'.forwarder i = .done ∨ (s'.forwarder i).Running ∧
      (s'.forwarder i).stepsLeft (cap - s'.out.buf.length) ≤
        (s.forwarder i).stepsLeft (cap - s.out.buf.length) ∧
      (StepOf (.forwarder i) l → (s'.forwarder i).stepsLeft (cap - s'.out.buf.length) <
        (s.forwarder i).stepsLeft (cap - s.out.buf.length)) := by
  by_cases hl : StepOf (.forwarder i) l
  · rcases own_step hctrl hstep hl with
      ⟨v, hf, hf', hout⟩ | ⟨v, hf, hf', hroom, hbuf⟩ | ⟨hf, hf'⟩ | ⟨hf, hf'⟩
    · right
      simp only [hf, hf', hout, Forwarder.Running, Forwarder.stepsLeft]
      simp
    · right
      simp only [hf, hf', hbuf, Forwarder.Running, Forwarder.stepsLeft]
      simp only [ne_eq, reduceCtorEq, not_false_eq_true, and_self, true_and]
      omega
    · right
      have hlarge : 1 < (s.forwarder i).stepsLeft (cap - s.out.buf.length) := by
        cases hcase : s.forwarder i with
        | receiving | sending v =>
          simp only [Forwarder.stepsLeft]
          omega
        | _ =>
          rw [hcase] at hf
          cases hf
      rw [hf']
      exact ⟨⟨by simp, by simp⟩, le_of_lt hlarge, fun _ => hlarge⟩
    · exact .inl hf'
  · right
    have hsame := forwarder_of_not_own hctrl hrun.1 hstep hl
    have hbuf := length_buf_le hstep hrecv
    rw [hsame]
    exact ⟨hrun, Forwarder.stepsLeft_mono (by omega) _, fun h => absurd h hl⟩

/-- Only the main goroutine starts forwarders, one with each of its steps. -/
theorem spawned_step (hstep : Step s l s') (hlt : s.spawned < n) :
    s.spawned ≤ s'.spawned ∧ (StepOf .main l → s.spawned < s'.spawned) := by
  cases hstep with
  | spawn _ => exact ⟨Nat.le_succ _, fun _ => Nat.lt_succ_self _⟩
  | launch hall _ => exact absurd hlt (Nat.not_lt_of_le hall)
  | _ => exact ⟨le_rfl, fun h => by cases h⟩

section

variable (r : (fanIn T n cap).Run start) {k : Nat}

/-- The main goroutine starts every forwarder. -/
theorem starts (hmain : r.Fair (StepOf .main)) (i : Fin n) (k : Nat) :
    ∃ j, k ≤ j ∧ (r.state j).forwarder i ≠ .unstarted := by
  by_cases hstarted : (r.state k).forwarder i = .unstarted
  · refine r.leadsTo_of_rank hmain (I := Control) (P := fun s => s.forwarder i = .unstarted)
      (Q := fun s => s.forwarder i ≠ .unstarted) (μ := fun s => n - s.spawned)
      (fun j _ => (invariants_run r j).1) ?_ ?_ hstarted
    · intro s l s' hctrl _ hf hnext
      have hlt : s.spawned < n := Nat.lt_of_le_of_lt ((hctrl.spawned i).mp hf) i.isLt
      obtain ⟨hle, hown⟩ := spawned_step (step_of_next hnext) hlt
      by_cases hf' : s'.forwarder i = .unstarted
      · refine .inr ⟨hf', by omega, fun hl => ?_⟩
        have := hown hl
        omega
      · exact .inl hf'
    · intro s hctrl hf
      have hlt : s.spawned < n := Nat.lt_of_le_of_lt ((hctrl.spawned i).mp hf) i.isLt
      exact enabled_of_step (.spawn hlt) rfl
  · exact ⟨k, le_rfl, hstarted⟩

theorem ctxDone_run (hctx : (r.state k).ctxDone = true) {j : Nat} (hle : k ≤ j) :
    (r.state j).ctxDone = true :=
  r.invariant (P := fun s => s.ctxDone = true)
    (fun _ _ _ hs hnext => ctxDone_step hs (step_of_next hnext)) hle hctx

/-- A consumer that has stopped receives nothing. -/
theorem received_of_stopped (hstop : ∀ j, k ≤ j → r.label j ≠ some .recv) {j : Nat} (hle : k ≤ j) :
    (r.state j).received = (r.state k).received := by
  induction j, hle using Nat.le_induction with
  | base => rfl
  | succ j hle ih =>
    cases hl : r.label j with
    | none => rw [r.rest j hl, ih]
    | some l =>
      rw [← ih]
      have hstep := step_of_next (r.step j l hl)
      have hne : l ≠ .recv := fun heq => hstop j hle (heq ▸ hl)
      generalize r.state (j + 1) = s' at hstep
      cases hstep with
      | recv _ _ => exact absurd rfl hne
      | _ => rfl

/-- If the consumer has stopped, a running forwarder ends after a cancellation. -/
theorem ends_of_stopped (hfair : r.Fair (StepOf (.forwarder i)))
    (hctx : (r.state k).ctxDone = true) (hstop : ∀ j, k ≤ j → r.label j ≠ some .recv)
    (hrun : ((r.state k).forwarder i).Running) : ∃ j, k ≤ j ∧ (r.state j).forwarder i = .done := by
  refine r.leadsTo_of_rank hfair
    (I := fun s => Control s ∧ s.ctxDone = true ∧ s.received = (r.state k).received)
    (P := fun s => (s.forwarder i).Running) (Q := fun s => s.forwarder i = .done)
    (μ := fun s => (s.forwarder i).stepsLeft (cap - s.out.buf.length)) ?_ ?_ ?_ hrun
  · intro j hle
    exact ⟨(invariants_run r j).1, ctxDone_run r hctx hle, received_of_stopped r hstop hle⟩
  · rintro s l s' ⟨hctrl, -, hrecv⟩ ⟨-, -, hrecv'⟩ hs hnext
    exact running_step hctrl hs (step_of_next hnext) (hrecv'.trans hrecv.symm)
  · rintro s ⟨-, hdone, -⟩ hs
    exact enabled_of_ctxDone hdone hs.1 hs.2

/-- A forwarder that returns leaves the wait group. -/
theorem ends_of_returning (hfair : r.Fair (StepOf (.forwarder i)))
    (hret : (r.state k).forwarder i = .returning) :
    ∃ j, k ≤ j ∧ (r.state j).forwarder i = .done := by
  refine r.leadsTo_of_rank hfair (I := Control) (P := fun s => s.forwarder i = .returning)
    (Q := fun s => s.forwarder i = .done) (μ := fun _ => 0)
    (fun j _ => (invariants_run r j).1) ?_ ?_ hret
  · intro s l s' hctrl _ hs hnext
    have hstep := step_of_next hnext
    by_cases hl : StepOf (.forwarder i) l
    · rcases own_step hctrl hstep hl with
        ⟨v, hf, -⟩ | ⟨v, hf, -⟩ | ⟨hf, -⟩ | ⟨-, hf'⟩
      · rw [hs] at hf
        cases hf
      · rw [hs] at hf
        cases hf
      · rw [hs] at hf
        cases hf
      · exact .inl hf'
    · rw [forwarder_of_not_own hctrl (by simp [hs]) hstep hl]
      exact .inr ⟨hs, le_rfl, fun h => absurd h hl⟩
  · intro s _ hs
    exact enabled_of_step (.wgDone hs) rfl

theorem quit_step (hstep : Step s (.quit i) s') : s'.forwarder i = .returning := by
  cases hstep with
  | quit _ _ => exact update_self ..

/-- A forwarder that takes the case `<-ctx.Done()` ends, whatever the consumer
does. -/
theorem ends_of_quit (hfair : r.Fair (StepOf (.forwarder i))) (hquit : r.Fair (· = .quit i))
    (hctx : (r.state k).ctxDone = true) (hrun : ((r.state k).forwarder i).Running) :
    ∃ j, k ≤ j ∧ (r.state j).forwarder i = .done := by
  -- It leaves its `select` first.
  obtain ⟨j, hkj, hj⟩ : ∃ j, k ≤ j ∧
      ((r.state j).forwarder i = .returning ∨ (r.state j).forwarder i = .done) := by
    by_cases hselects : ((r.state k).forwarder i).selects = true
    · refine r.leadsTo_of_rank hquit (I := fun s => Control s ∧ s.ctxDone = true)
        (P := fun s => (s.forwarder i).selects = true)
        (Q := fun s => s.forwarder i = .returning ∨ s.forwarder i = .done) (μ := fun _ => 0)
        (fun j hle => ⟨(invariants_run r j).1, ctxDone_run r hctx hle⟩) ?_ ?_ hselects
      · rintro s l s' ⟨hctrl, -⟩ - hs hnext
        have hstep := step_of_next hnext
        have hnot : s.forwarder i ≠ .unstarted := by
          intro hf
          rw [hf] at hs
          cases hs
        by_cases hstays : (s'.forwarder i).selects = true
        · refine .inr ⟨hstays, le_rfl, fun heq => ?_⟩
          rw [quit_step (heq ▸ hstep)] at hstays
          cases hstays
        · -- It has left, by a step of its own.
          have hl : StepOf (.forwarder i) l := by
            by_contra hl
            rw [forwarder_of_not_own hctrl hnot hstep hl] at hstays
            exact hstays hs
          rcases own_step hctrl hstep hl with
            ⟨v, -, hf', -⟩ | ⟨v, -, hf', -, -⟩ | ⟨-, hf'⟩ | ⟨-, hf'⟩
          · exact absurd (by rw [hf']; rfl) hstays
          · exact absurd (by rw [hf']; rfl) hstays
          · exact .inl (.inl hf')
          · exact .inl (.inr hf')
      · rintro s ⟨-, hdone⟩ hs
        exact ⟨.quit i, rfl, by rw [next_of_step (.quit hs hdone)]; rfl⟩
    · refine ⟨k, le_rfl, ?_⟩
      cases hf : (r.state k).forwarder i with
      | unstarted => exact absurd hf hrun.1
      | done => exact .inr rfl
      | returning => exact .inl rfl
      | _ =>
        rw [hf] at hselects
        exact absurd rfl hselects
  rcases hj with hret | hdone
  · obtain ⟨j', hjj', hdone⟩ := ends_of_returning r hfair hret
    exact ⟨j', hkj.trans hjj', hdone⟩
  · exact ⟨j, hkj, hdone⟩

/-- After a cancellation every forwarder ends, if the consumer stops or if the
case `<-ctx.Done()` is not passed over for ever. -/
theorem ends_of_cancel (hmain : r.Fair (StepOf .main)) (hfair : r.Fair (StepOf (.forwarder i)))
    (hctx : (r.state k).ctxDone = true)
    (hcase : (∀ j, k ≤ j → r.label j ≠ some .recv) ∨ r.Fair (· = .quit i)) :
    ∃ j, k ≤ j ∧ (r.state j).forwarder i = .done := by
  obtain ⟨j, hkj, hstarted⟩ := starts r hmain i k
  by_cases hdone : (r.state j).forwarder i = .done
  · exact ⟨j, hkj, hdone⟩
  · have hctx' := ctxDone_run r hctx hkj
    obtain ⟨j', hjj', hend⟩ : ∃ j', j ≤ j' ∧ (r.state j').forwarder i = .done := by
      rcases hcase with hstop | hquit
      · exact ends_of_stopped r hfair hctx' (fun i hi => hstop i (hkj.trans hi)) ⟨hstarted, hdone⟩
      · exact ends_of_quit r hfair hquit hctx' ⟨hstarted, hdone⟩
    exact ⟨j', hkj.trans hjj', hend⟩

end

/-! ## The fan-in -/

theorem bufSize_pos (bufFactor : Int) (n : Nat) : 0 < bufSize bufFactor n := by
  unfold bufSize
  dsimp only
  split <;> split <;> omega

/-- **Nothing is lost or reordered.**  In every reachable state the consumer
has received an interleaving of prefixes of the inputs; the output has been
closed at most once, without a panic, and if so every forwarder is done;
and no forwarder is blocked once the context is cancelled.

In a run that is fair to all processes, if the context is not cancelled and
the inputs come to be closed, the consumer sees the end of the output, and
has by then received every value of them once. After a cancellation every
forwarder ends in a run that is fair to it, also if the consumer stops. -/
theorem fanIn_lossless (T : Type*) (n : Nat) (bufFactor : Int) :
    (∀ (ls : List (Label T n)) s, (fanIn T n (bufSize bufFactor n)).exec start ls = some s →
      InterleavesPrefixes (fun i => (s.inputs i).sent) s.received ∧
      s.closes ≤ 1 ∧ s.panicked = false ∧
      (s.out.closed = true → ∀ i, s.forwarder i = .done) ∧
      (s.ctxDone = true → ∀ i, s.forwarder i ≠ .unstarted → s.forwarder i ≠ .done →
        (fanIn T n (bufSize bufFactor n)).Enabled (StepOf (.forwarder i)) s)) ∧
    ∀ r : (fanIn T n (bufSize bufFactor n)).Run start,
      ((∀ p, r.Fair (StepOf p)) → (∀ k, (r.state k).ctxDone = false) →
        (∀ i, ∃ k, ((r.state k).inputs i).closed = true) →
        ∃ j, (r.state j).ended = true ∧ (∀ i, ((r.state j).inputs i).closed = true) ∧
          Interleaves (fun i => ((r.state j).inputs i).sent) (r.state j).received) ∧
      (r.Fair (StepOf .main) → ∀ k, (r.state k).ctxDone = true →
        ∀ i, r.Fair (StepOf (.forwarder i)) →
        (∀ j, k ≤ j → r.label j ≠ some .recv) ∨ r.Fair (· = .quit i) →
        ∃ j, k ≤ j ∧ (r.state j).forwarder i = .done) := by
  refine ⟨fun ls s hexec => ?_, fun r => ⟨?_, ?_⟩⟩
  · obtain ⟨hctrl, hflow⟩ := invariants_exec hexec
    refine ⟨hflow.received, ?_, hctrl.panicked, ?_, fun hctx i => enabled_of_ctxDone hctx⟩
    · rw [hctrl.closes]
      split <;> omega
    · exact fun hclosed => hctrl.waited (.inr (hctrl.closed.mp hclosed))
  · intro hfair hctx hclosed
    -- From the last of the closes on all inputs are closed.
    choose k hk using hclosed
    have hlast : ∀ i j, ∑ i, k i ≤ j → ((r.state j).inputs i).closed = true := fun i j hle =>
      closed_run r ((Finset.single_le_sum (fun _ _ => Nat.zero_le _) (Finset.mem_univ i)).trans hle)
        (hk i)
    obtain ⟨j, hkj, hended⟩ := ends_of_closed (bufSize_pos bufFactor n) r hfair hctx
      fun i => hlast i _ (Nat.le_refl _)
    obtain ⟨hctrl, hflow⟩ := invariants_run r j
    exact ⟨j, hended, fun i => hlast i j hkj, hflow.received_all hctrl (hctx j) hended⟩
  · intro hmain k hctx i hfair hcase
    exact ends_of_cancel r hmain hfair hctx hcase

/-- Without the step that cancels it, the context is not cancelled. -/
theorem ctxDone_exec {ls : List (Label T n)} (h : (fanIn T n cap).exec start ls = some s)
    (hls : ∀ l ∈ ls, l ≠ .cancel) : s.ctxDone = false := by
  refine (fanIn T n cap).exec_history
    (P := fun hist s => (∀ l ∈ hist, l ≠ .cancel) → s.ctxDone = false) (fun _ => rfl) ?_ ls h hls
  intro hist s l s' _ ih hnext hnot
  have hbefore : s.ctxDone = false := ih fun x hx => hnot x (mem_append_left _ hx)
  have hstep := step_of_next hnext
  cases hstep with
  | cancel _ => exact absurd rfl (hnot .cancel (by simp))
  | _ => exact hbefore

/-- Once the output is closed, only the consumer can move. -/
theorem ofExec_fair {ls : List (Label T n)} (hs : (fanIn T n cap).exec start ls = some s)
    (hspawned : s.spawned = n) (hdone : ∀ i, s.forwarder i = .done) (hclosed : s.closer = .closed)
    {p : Process n} (hp : p = .consumer → (fanIn T n cap).next s .recv = none) :
    (LTS.Run.ofExec hs).Fair (StepOf p) := by
  refine LTS.Run.ofExec_fair hs ?_
  rintro ⟨l, hl, hnext⟩
  cases l with
  | produce i v | closeInput i | cancel => cases hl
  | recv =>
    cases hl
    rw [hp rfl] at hnext
    cases hnext
  | _ => simp [fanIn, hspawned, hdone, hclosed, Forwarder.selects] at hnext

/-- Two inputs, one with two values. -/
def sampleRun : List (Label Nat 2) :=
  [.produce 0 7, .spawn, .produce 1 5, .spawn, .take 1, .take 0, .launch, .send 0, .produce 0 8,
    .closeInput 0, .send 1, .take 0, .recv, .send 0, .eof 0, .closeInput 1, .wgDone 0, .eof 1,
    .recv, .wgDone 1, .wait, .close, .recv, .recv]

/-- The context is cancelled while a forwarder holds a value; nobody receives. -/
def canceledRun : List (Label Nat 2) :=
  [.produce 0 7, .spawn, .take 0, .spawn, .launch, .cancel, .quit 1, .quit 0, .wgDone 0, .wgDone 1,
    .wait, .close]

/-- In the one run everything is received, in the other the forwarders end. -/
theorem sampleRun_received :
    (∃ r : (fanIn Nat 2 (bufSize 4 2)).Run start, ∃ j, (r.state j).ended = true ∧
      Interleaves (fun i => ((r.state j).inputs i).sent) (r.state j).received) ∧
    ∃ r : (fanIn Nat 2 (bufSize 4 2)).Run start, (r.state 6).ctxDone = true ∧
      ∀ i, ∃ j, 6 ≤ j ∧ (r.state j).forwarder i = .done := by
  obtain ⟨-, hrun⟩ := fanIn_lossless Nat 2 4
  constructor
  · have hsome : ((fanIn Nat 2 (bufSize 4 2)).exec start sampleRun).isSome := rfl
    have hs := (Option.some_get hsome).symm
    have hctx : ∀ k, ((LTS.Run.ofExec hs).state k).ctxDone = false := by
      intro k
      refine ctxDone_exec (LTS.Run.exec_ofExec hs k) fun l hl => ?_
      have hnot : ∀ l ∈ sampleRun, l ≠ .cancel := by simp [sampleRun]
      exact hnot l (List.mem_of_mem_take hl)
    obtain ⟨j, hended, -, hall⟩ := (hrun (LTS.Run.ofExec hs)).1
      (fun p => ofExec_fair hs rfl (Fin.forall_fin_two.mpr ⟨rfl, rfl⟩) rfl fun _ => rfl) hctx
      (Fin.forall_fin_two.mpr ⟨⟨24, rfl⟩, ⟨24, rfl⟩⟩)
    exact ⟨LTS.Run.ofExec hs, j, hended, hall⟩
  · have hsome : ((fanIn Nat 2 (bufSize 4 2)).exec start canceledRun).isSome := rfl
    have hs := (Option.some_get hsome).symm
    have hfair : ∀ p, p ≠ .consumer → (LTS.Run.ofExec hs).Fair (StepOf p) := fun p hp =>
      ofExec_fair hs rfl (Fin.forall_fin_two.mpr ⟨rfl, rfl⟩) rfl fun h => absurd h hp
    have hstopped : ∀ j, (LTS.Run.ofExec hs).label j ≠ some .recv := by
      intro j hj
      have hnot : ∀ l ∈ canceledRun, l ≠ .recv := by simp [canceledRun]
      exact hnot _ (List.mem_of_getElem? hj) rfl
    exact ⟨LTS.Run.ofExec hs, rfl, fun i => (hrun (LTS.Run.ofExec hs)).2 (hfair _ nofun) 6 rfl i
      (hfair _ nofun) (.inl fun j _ => hstopped j)⟩

end Otedama.Engine.FanIn
