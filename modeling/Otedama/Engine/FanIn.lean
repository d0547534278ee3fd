import Mathlib.Algebra.BigOperators.Fin
import Otedama.Framework.Fairness
import Otedama.Framework.GoChan
import Otedama.Framework.Interleaving

/-! # Fan-in

`fanIn` starts a goroutine for each input, which receives a value and
sends it on, and one more, which waits for all of them and closes the
output.

* **State**: the inputs; where each goroutine stands; the wait group; the
  output; and what the consumer has received.
* **Steps**: each channel operation, each return, `wg.Done`, `wg.Wait` and
  `close` is one step. A `select` takes any of its cases that are ready.
* **Invariants**: `Control` says who may still be running, `Flow` where
  the values of each input are.

The inputs take any number of values. What the consumer has received and
what is in the output buffer is, together, an interleaving of prefixes of
the inputs: a send appends to it, a receive leaves it alone. -/

namespace Otedama.Engine.FanIn

open Interleaving Function Option GoChan List

/-! ## State -/

/-- An input channel. -/
structure Input (T : Type*) where
  /-- All values ever sent into it. -/
  sent : List T
  /-- Those that have not been received yet. -/
  pending : List T
  closed : Bool

/-- Where the goroutine of an input stands. -/
inductive Forwarder (T : Type*) where
  | unstarted
  /-- In the outer `select`. -/
  | receiving
  /-- In the inner `select`. -/
  | sending (v : T)
  /-- Before `wg.Done`. -/
  | returning
  | done

/-- Where the goroutine stands that closes the output. -/
inductive Closer where
  | unstarted
  /-- In `wg.Wait`. -/
  | waiting
  | waited
  | closed
  deriving DecidableEq, Repr

structure State (T : Type*) (n cap : Nat) where
  inputs : Fin n → Input T
  ctxDone : Bool
  /-- How many forwarders have been started. -/
  spawned : Nat
  wg : Nat
  forwarder : Fin n → Forwarder T
  closer : Closer
  out : GoChan T cap
  /-- How often `out` has been closed. -/
  closes : Nat
  received : List T
  /-- The consumer has seen the output closed. -/
  ended : Bool
  /-- A send on the closed output, or a second close. -/
  panicked : Bool

/-- The length of the buffer; the product is one of machine integers. -/
def bufSize (bufFactor : Int) (n : Nat) : Nat :=
  let size := (bufFactor * n).bmod (2 ^ 64)
  let size := if size > 64 then 64 else size
  let size := if size < 1 then 1 else size
  size.toNat

variable {T : Type*} {n cap : Nat}

/-- When `fanIn` is called. What the inputs have then they take before its
first step. -/
def start : State T n cap where
  inputs _ := ⟨[], [], false⟩
  ctxDone := false
  spawned := 0
  wg := 0
  forwarder _ := .unstarted
  closer := .unstarted
  out := .empty
  closes := 0
  received := []
  ended := false
  panicked := false

/-! ## Steps -/

inductive Label (T : Type*) (n : Nat) where
  /-- A value is sent into an input. -/
  | produce (i : Fin n) (v : T)
  | closeInput (i : Fin n)
  | cancel
  /-- `wg.Add` and `go`, for the next input. -/
  | spawn
  /-- `go` for the closer; the output is returned. -/
  | launch
  | take (i : Fin n)
  /-- The receive reports that the input is closed. -/
  | eof (i : Fin n)
  | send (i : Fin n)
  /-- The case `<-ctx.Done()`, of either `select`. -/
  | quit (i : Fin n)
  | wgDone (i : Fin n)
  | wait
  | close
  /-- The consumer receives from the output. -/
  | recv

/-- Who takes a step. -/
inductive Process (n : Nat) where
  | main
  | forwarder (i : Fin n)
  | closer
  | consumer

/-- The process that takes the step; `none` for the producers and the owner of
the context. -/
def Label.process : Label T n → Option (Process n)
  | .produce _ _ | .closeInput _ | .cancel => none
  | .spawn | .launch => some .main
  | .take i | .eof i | .send i | .quit i | .wgDone i => some (.forwarder i)
  | .wait | .close => some .closer
  | .recv => some .consumer

/-- The forwarder is in one of the two `select` statements. -/
def Forwarder.selects : Forwarder T → Bool
  | .receiving | .sending _ => true
  | _ => false

namespace State

/-- The forwarder goes on to another program point. -/
def move (s : State T n cap) (i : Fin n) (f : Forwarder T) : State T n cap :=
  { s with forwarder := Function.update s.forwarder i f }

def setInput (s : State T n cap) (i : Fin n) (inp : Input T) : State T n cap :=
  { s with inputs := Function.update s.inputs i inp }

end State

def fanIn (T : Type*) (n cap : Nat) : LTS (State T n cap) (Label T n) where
  next s
    | .produce i v =>
        if (s.inputs i).closed then none
        else some (s.setInput i ⟨(s.inputs i).sent ++ [v], (s.inputs i).pending ++ [v], false⟩)
    | .closeInput i =>
        if (s.inputs i).closed then none
        else some (s.setInput i { s.inputs i with closed := true })
    | .cancel => if s.ctxDone then none else some { s with ctxDone := true }
    | .spawn =>
        if h : s.spawned < n then
          some { s.move ⟨s.spawned, h⟩ .receiving with spawned := s.spawned + 1, wg := s.wg + 1 }
        else none
    | .launch =>
        if n ≤ s.spawned ∧ s.closer = .unstarted then some { s with closer := .waiting } else none
    | .take i =>
        match s.forwarder i with
        | .receiving =>
            match (s.inputs i).pending with
            | v :: rest =>
                some ((s.setInput i { s.inputs i with pending := rest }).move i (.sending v))
            | [] => none
        | _ => none
    | .eof i =>
        match s.forwarder i with
        | .receiving =>
            match (s.inputs i).pending with
            | [] => if (s.inputs i).closed then some (s.move i .returning) else none
            | _ => none
        | _ => none
    | .send i =>
        match s.forwarder i with
        | .sending v =>
            match s.out.send v with
            | .sent c => some { s.move i .receiving with out := c }
            | .full => none
            | .panic => some { s with panicked := true }
        | _ => none
    | .quit i =>
        if (s.forwarder i).selects ∧ s.ctxDone then some (s.move i .returning) else none
    | .wgDone i =>
        match s.forwarder i with
        | .returning => some { s.move i .done with wg := s.wg - 1 }
        | _ => none
    | .wait =>
        if s.closer = .waiting ∧ s.wg = 0 then some { s with closer := .waited } else none
    | .close =>
        if s.closer = .waited then
          match s.out.close with
          | some c => some { s with closer := .closed, out := c, closes := s.closes + 1 }
          | none => some { s with panicked := true }
        else none
    | .recv =>
        -- The consumer has the output once it is returned.
        if s.closer = .unstarted then none
        else
          match s.out.recv with
          | .got v c => some { s with out := c, received := s.received ++ [v] }
          | .empty => none
          | .closed => if s.ended then none else some { s with ended := true }

/-- What a step can do. -/
inductive Step (s : State T n cap) : Label T n → State T n cap → Prop where
  | produce {i v} (h : (s.inputs i).closed = false) :
      Step s (.produce i v)
        (s.setInput i ⟨(s.inputs i).sent ++ [v], (s.inputs i).pending ++ [v], false⟩)
  | closeInput {i} (h : (s.inputs i).closed = false) :
      Step s (.closeInput i) (s.setInput i { s.inputs i with closed := true })
  | cancel (h : s.ctxDone = false) : Step s .cancel { s with ctxDone := true }
  | spawn (h : s.spawned < n) :
      Step s .spawn
        { s.move ⟨s.spawned, h⟩ .receiving with spawned := s.spawned + 1, wg := s.wg + 1 }
  | launch (h : n ≤ s.spawned) (hc : s.closer = .unstarted) :
      Step s .launch { s with closer := .waiting }
  | take {i v rest} (h : s.forwarder i = .receiving) (hp : (s.inputs i).pending = v :: rest) :
      Step s (.take i) ((s.setInput i { s.inputs i with pending := rest }).move i (.sending v))
  | eof {i} (h : s.forwarder i = .receiving) (hp : (s.inputs i).pending = [])
      (hc : (s.inputs i).closed = true) : Step s (.eof i) (s.move i .returning)
  | send {i v c} (h : s.forwarder i = .sending v) (hs : s.out.send v = .sent c) :
      Step s (.send i) { s.move i .receiving with out := c }
  | sendPanic {i v} (h : s.forwarder i = .sending v) (hs : s.out.send v = .panic) :
      Step s (.send i) { s with panicked := true }
  | quit {i} (h : (s.forwarder i).selects = true) (hctx : s.ctxDone = true) :
      Step s (.quit i) (s.move i .returning)
  | wgDone {i} (h : s.forwarder i = .returning) :
      Step s (.wgDone i) { s.move i .done with wg := s.wg - 1 }
  | wait (h : s.closer = .waiting) (hw : s.wg = 0) : Step s .wait { s with closer := .waited }
  | close {c} (h : s.closer = .waited) (hc : s.out.close = some c) :
      Step s .close { s with closer := .closed, out := c, closes := s.closes + 1 }
  | closePanic (h : s.closer = .waited) (hc : s.out.close = none) :
      Step s .close { s with panicked := true }
  | recv {v c} (h : s.closer ≠ .unstarted) (hr : s.out.recv = .got v c) :
      Step s .recv { s with out := c, received := s.received ++ [v] }
  | recvEnd (h : s.closer ≠ .unstarted) (hr : s.out.recv = .closed) (he : s.ended = false) :
      Step s .recv { s with ended := true }

variable {s s' : State T n cap} {l : Label T n} {i : Fin n}

theorem step_of_next (h : (fanIn T n cap).next s l = some s') : Step s l s' := by
  cases l with
  | produce i v =>
    obtain ⟨hopen, rfl⟩ : (s.inputs i).closed = false ∧ _ = s' := by
      simpa [fanIn, ite_none_left_eq_some] using h
    exact .produce hopen
  | closeInput i =>
    obtain ⟨hopen, rfl⟩ : (s.inputs i).closed = false ∧ _ = s' := by
      simpa [fanIn, ite_none_left_eq_some] using h
    exact .closeInput hopen
  | cancel =>
    obtain ⟨hctx, rfl⟩ : s.ctxDone = false ∧ _ = s' := by
      simpa [fanIn, ite_none_left_eq_some] using h
    exact .cancel hctx
  | spawn =>
    dsimp only [fanIn] at h
    split at h
    · next hlt =>
      cases h
      exact .spawn hlt
    · cases h
  | launch =>
    obtain ⟨⟨hall, hc⟩, heq⟩ := ite_none_right_eq_some.mp h
    cases heq
    exact .launch hall hc
  | take i =>
    dsimp only [fanIn] at h
    split at h
    · next hf =>
      split at h
      · next v rest hp =>
        cases h
        exact .take hf hp
      · cases h
    · cases h
  | eof i =>
    dsimp only [fanIn] at h
    split at h
    · next hf =>
      split at h
      · next hp =>
        obtain ⟨hc, heq⟩ := ite_none_right_eq_some.mp h
        cases heq
        exact .eof hf hp hc
      · cases h
    · cases h
  | send i =>
    dsimp only [fanIn] at h
    split at h
    · next v hf =>
      split at h
      · next c hs =>
        cases h
        exact .send hf hs
      · cases h
      · next hs =>
        cases h
        exact .sendPanic hf hs
    · cases h
  | quit i =>
    obtain ⟨⟨hf, hctx⟩, heq⟩ := ite_none_right_eq_some.mp h
    cases heq
    exact .quit hf hctx
  | wgDone i =>
    dsimp only [fanIn] at h
    split at h
    · next hf =>
      cases h
      exact .wgDone hf
    · cases h
  | wait =>
    obtain ⟨⟨hc, hw⟩, heq⟩ := ite_none_right_eq_some.mp h
    cases heq
    exact .wait hc hw
  | close =>
    obtain ⟨hc, h⟩ := ite_none_right_eq_some.mp h
    split at h
    · next c hclose =>
      cases h
      exact .close hc hclose
    · next hclose =>
      cases h
      exact .closePanic hc hclose
  | recv =>
    obtain ⟨hc, h⟩ := ite_none_left_eq_some.mp h
    split at h
    · next v c hr =>
      cases h
      exact .recv hc hr
    · cases h
    · next hr =>
      obtain ⟨he, heq⟩ := ite_none_left_eq_some.mp h
      cases heq
      exact .recvEnd hc hr (Bool.eq_false_iff.mpr he)

theorem next_of_step (h : Step s l s') : (fanIn T n cap).next s l = some s' := by
  cases h with
  | spawn h => exact dif_pos h
  | send h hs | sendPanic h hs | take h hs =>
    dsimp only [fanIn]
    rw [h]
    dsimp only
    rw [hs]
  | eof h hp hc =>
    dsimp only [fanIn]
    rw [h]
    dsimp only
    rw [hp]
    exact if_pos hc
  | wgDone h =>
    dsimp only [fanIn]
    rw [h]
  | close h hc | closePanic h hc =>
    dsimp only [fanIn]
    rw [if_pos h, hc]
  | recv h hr =>
    dsimp only [fanIn]
    rw [if_neg h, hr]
  | recvEnd h hr he =>
    dsimp only [fanIn]
    rw [if_neg h, hr, he]
    rfl
  | produce h | closeInput h | cancel h => exact if_neg (Bool.eq_false_iff.mp h)
  | launch h h' | quit h h' | wait h h' => exact if_pos ⟨h, h'⟩

/-! ## Who may be running -/

/-- A sum whose terms change at one place only. -/
theorem sum_change {f g : Fin n → Nat} (i : Fin n) (h : ∀ j, j ≠ i → g j = f j) :
    ∑ j, g j + f i = ∑ j, f j + g i := by
  have hrest : ∑ j ∈ Finset.univ.erase i, g j = ∑ j ∈ Finset.univ.erase i, f j :=
    Finset.sum_congr rfl fun j hj => h j (Finset.ne_of_mem_erase hj)
  rw [← Finset.add_sum_erase Finset.univ g (Finset.mem_univ i),
    ← Finset.add_sum_erase Finset.univ f (Finset.mem_univ i), hrest]
  omega

/-- What the forwarder counts for in the wait group. -/
def Forwarder.weight : Forwarder T → Nat
  | .unstarted | .done => 0
  | _ => 1

theorem move_self {f : Forwarder T} : (s.move i f).forwarder i = f := update_self ..

theorem move_of_ne {f : Forwarder T} {j : Fin n} (hj : j ≠ i) :
    (s.move i f).forwarder j = s.forwarder j := update_of_ne hj ..

/-- Moving a forwarder changes the count by its own weight. -/
theorem sum_weight_move (s : State T n cap) (i : Fin n) (f : Forwarder T) :
    ∑ j, ((s.move i f).forwarder j).weight + (s.forwarder i).weight =
      ∑ j, (s.forwarder j).weight + f.weight := by
  rw [sum_change (f := fun j => (s.forwarder j).weight) i fun j hj => ?_, move_self]
  rw [move_of_ne hj]

/-- Forwarders are started in order, the closer after them; the wait group
counts those that run; the output is closed once, after all of them are
done. -/
structure Control (s : State T n cap) : Prop where
  spawned : ∀ i, s.forwarder i = .unstarted ↔ s.spawned ≤ i
  launched : s.closer ≠ .unstarted → n ≤ s.spawned
  wg : s.wg = ∑ i, (s.forwarder i).weight
  waited : s.closer = .waited ∨ s.closer = .closed → ∀ i, s.forwarder i = .done
  closed : s.out.closed = true ↔ s.closer = .closed
  closes : s.closes = if s.out.closed then 1 else 0
  panicked : s.panicked = false
  ended : s.ended = true → s.out.closed = true ∧ s.out.buf = []

theorem Control.started (h : Control s) (hc : s.closer ≠ .unstarted) (i : Fin n) :
    s.forwarder i ≠ .unstarted := by
  intro hf
  have hle : s.spawned ≤ i := (h.spawned i).mp hf
  exact absurd ((h.launched hc).trans hle) (Nat.not_le_of_lt i.isLt)

theorem control_start : Control (start : State T n cap) where
  spawned i := ⟨fun _ => Nat.zero_le _, fun _ => rfl⟩
  launched h := absurd rfl h
  wg := by simp [start, Forwarder.weight]
  waited h := by simp [start] at h
  closed := by simp [start, empty]
  closes := rfl
  panicked := rfl
  ended h := by simp [start] at h

/-- A forwarder that runs moves on to a point where it still has been started. -/
theorem Control.move (h : Control s) {f : Forwarder T} (hrun : (s.forwarder i).weight = 1)
    (hf : f ≠ .unstarted) : (∀ j, (s.move i f).forwarder j = .unstarted ↔ s.spawned ≤ j) ∧
    ¬ (s.closer = .waited ∨ s.closer = .closed) := by
  refine ⟨fun j => ?_, fun hwaited => ?_⟩
  · by_cases hj : j = i
    · subst hj
      have hnot : ¬ s.spawned ≤ j := fun hle => by
        rw [(h.spawned j).mpr hle] at hrun
        cases hrun
      rw [move_self]
      exact iff_of_false hf hnot
    · rw [move_of_ne hj]
      exact h.spawned j
  · rw [h.waited hwaited i] at hrun
    cases hrun

/-- A running forwarder moves on and stays in the wait group. -/
theorem Control.move_running (h : Control s) {f : Forwarder T}
    (hrun : (s.forwarder i).weight = 1) (hf : f.weight = 1) : Control (s.move i f) := by
  have hne : f ≠ .unstarted := by
    rintro rfl
    cases hf
  obtain ⟨hspawned, hnot⟩ := h.move hrun hne
  have hsum := sum_weight_move s i f
  refine ⟨hspawned, h.launched, ?_, fun hw => absurd hw hnot, h.closed, h.closes, h.panicked,
    h.ended⟩
  have hwg := h.wg
  show s.wg = ∑ j, ((s.move i f).forwarder j).weight
  omega

theorem Control.step (h : Control s) (hstep : Step s l s') : Control s' := by
  cases hstep with
  | produce hin | closeInput hin | cancel hin =>
    exact ⟨h.spawned, h.launched, h.wg, h.waited, h.closed, h.closes, h.panicked, h.ended⟩
  | spawn hlt =>
    have hnone : s.forwarder ⟨s.spawned, hlt⟩ = .unstarted := (h.spawned _).mpr le_rfl
    have hunlaunched : s.closer = .unstarted := by
      by_contra hc
      exact absurd (h.launched hc) (Nat.not_le_of_lt hlt)
    have hsum := sum_weight_move s ⟨s.spawned, hlt⟩ .receiving
    rw [hnone] at hsum
    change _ + 0 = _ + 1 at hsum
    refine ⟨fun j => ?_, fun hc => absurd hunlaunched hc, ?_, fun hw => ?_, h.closed, h.closes,
      h.panicked, h.ended⟩
    · by_cases hj : j = ⟨s.spawned, hlt⟩
      · subst hj
        refine iff_of_false (fun hf => ?_) (by simp)
        cases move_self.symm.trans hf
      · refine ((move_of_ne hj).congr_left.trans (h.spawned j)).trans ?_
        have hval : (j : Nat) ≠ s.spawned := fun heq => hj (Fin.ext heq)
        show s.spawned ≤ j ↔ s.spawned + 1 ≤ j
        omega
    · have hwg := h.wg
      show s.wg + 1 = ∑ j, ((s.move ⟨s.spawned, hlt⟩ .receiving).forwarder j).weight
      omega
    · change s.closer = .waited ∨ s.closer = .closed at hw
      simp [hunlaunched] at hw
  | launch hall hc =>
    refine ⟨h.spawned, fun _ => hall, h.wg, fun hw => by simp at hw, ?_, h.closes, h.panicked,
      h.ended⟩
    rw [h.closed, hc]
    simp
  | @take i v rest hf hp =>
    have hmoved := h.move_running (f := .sending v) (by rw [hf]; rfl) rfl
    exact ⟨hmoved.spawned, hmoved.launched, hmoved.wg, hmoved.waited, hmoved.closed,
      hmoved.closes, hmoved.panicked, hmoved.ended⟩
  | eof hf hp hc => exact h.move_running (by rw [hf]; rfl) rfl
  | @send i v c hf hs =>
    have hmoved := h.move_running (f := .receiving) (by rw [hf]; rfl) rfl
    obtain ⟨hopen, -, -, hopen'⟩ := send_eq_sent.mp hs
    refine ⟨hmoved.spawned, hmoved.launched, hmoved.wg, hmoved.waited, ?_, ?_, h.panicked, ?_⟩
    · show c.closed = true ↔ s.closer = .closed
      rw [hopen', ← h.closed, hopen]
    · show s.closes = if c.closed then 1 else 0
      rw [h.closes, hopen, hopen']
    · intro hended
      exact absurd (h.ended hended).1 (by simp [hopen])
  | sendPanic hf hs =>
    -- The output is closed only when every forwarder is done.
    have hdone := h.waited (.inr (h.closed.mp (send_eq_panic.mp hs)))
    rw [hdone] at hf
    cases hf
  | quit hf hctx =>
    refine h.move_running ?_ rfl
    cases hcase : s.forwarder _ with
    | receiving => rfl
    | sending v => rfl
    | _ =>
      rw [hcase] at hf
      cases hf
  | @wgDone i hf =>
    obtain ⟨hspawned, hnot⟩ := h.move (f := .done) (by rw [hf]; rfl) (by simp)
    have hsum := sum_weight_move s i .done
    rw [hf] at hsum
    change _ + 1 = _ + 0 at hsum
    refine ⟨hspawned, h.launched, ?_, fun hw => absurd hw hnot, h.closed, h.closes, h.panicked,
      h.ended⟩
    have hwg := h.wg
    show s.wg - 1 = ∑ j, ((s.move i .done).forwarder j).weight
    omega
  | wait hc hw =>
    refine ⟨h.spawned, fun _ => h.launched (by simp [hc]), h.wg, fun _ i => ?_, ?_, h.closes,
      h.panicked, h.ended⟩
    · -- A wait group of zero counts no forwarder, and all have been started.
      have hzero : (s.forwarder i).weight = 0 :=
        Finset.sum_eq_zero_iff.mp (h.wg.symm.trans hw) i (Finset.mem_univ i)
      have hstarted := h.started (by simp [hc]) i
      show s.forwarder i = .done
      cases hcase : s.forwarder i with
      | unstarted => exact absurd hcase hstarted
      | done => rfl
      | _ =>
        rw [hcase] at hzero
        cases hzero
    · rw [h.closed, hc]
      simp
  | @close c hc hclose =>
    obtain ⟨hopen, hbuf, hc'⟩ := close_eq_some.mp hclose
    refine ⟨h.spawned, fun _ => h.launched (by simp [hc]), h.wg, fun _ => h.waited (.inl hc),
      iff_of_true hc' rfl, ?_, h.panicked, fun hended => ?_⟩
    · show s.closes + 1 = if c.closed then 1 else 0
      rw [h.closes, hopen, hc']
      rfl
    · exact absurd (h.ended hended).1 (by simp [hopen])
  | closePanic hc hclose =>
    have hclosed := close_eq_none.mp hclose
    rw [h.closed, hc] at hclosed
    cases hclosed
  | @recv v c hc hr =>
    obtain ⟨hbuf, hsame⟩ := recv_eq_got.mp hr
    refine ⟨h.spawned, h.launched, h.wg, h.waited, ?_, ?_, h.panicked, fun hended => ?_⟩
    · show c.closed = true ↔ s.closer = .closed
      rw [hsame, h.closed]
    · show s.closes = if c.closed then 1 else 0
      rw [hsame, h.closes]
    · have hnil := (h.ended hended).2
      rw [hbuf] at hnil
      cases hnil
  | recvEnd hc hr he =>
    obtain ⟨hnil, hclosed⟩ := recv_eq_closed.mp hr
    exact ⟨h.spawned, h.launched, h.wg, h.waited, h.closed, h.closes, h.panicked,
      fun _ => ⟨hclosed, hnil⟩⟩

/-! ## Where the values are -/

/-- The values `xs` of an input have been sent on. -/
def Carried (ctxDone : Bool) (inp : Input T) (xs : List T) : Forwarder T → Prop
  | .unstarted | .receiving => xs ++ inp.pending = inp.sent
  | .sending v => xs ++ v :: inp.pending = inp.sent
  | .returning | .done => xs <+: inp.sent ∧ (ctxDone = false → xs = inp.sent ∧ inp.closed = true)

theorem Carried.prefix_sent {ctxDone : Bool} {inp : Input T} {xs : List T} {f : Forwarder T}
    (h : Carried ctxDone inp xs f) : xs <+: inp.sent := by
  cases f with
  | unstarted | receiving | sending v => exact ⟨_, h⟩
  | returning | done => exact h.1

/-- What the consumer has received, and then the buffer, interleaves what has
been sent on of each input. -/
def Flow (s : State T n cap) : Prop :=
  ∃ ms : List (Fin n × T), ms.map Prod.snd = s.received ++ s.out.buf ∧
    ∀ i, Carried s.ctxDone (s.inputs i) (marked i ms) (s.forwarder i)

theorem flow_start : Flow (start : State T n cap) := ⟨[], rfl, fun _ => rfl⟩

/-- What holds at one place and was left alone elsewhere holds everywhere. -/
theorem flow_of_at (ms : List (Fin n × T)) (i : Fin n)
    (hms : ms.map Prod.snd = s'.received ++ s'.out.buf)
    (hself : Carried s'.ctxDone (s'.inputs i) (marked i ms) (s'.forwarder i))
    (hother : ∀ j, j ≠ i → Carried s'.ctxDone (s'.inputs j) (marked j ms) (s'.forwarder j)) :
    Flow s' := by
  refine ⟨ms, hms, fun j => ?_⟩
  by_cases hj : j = i
  · subst hj
    exact hself
  · exact hother j hj

/-- A forwarder moves on with the same values sent on. -/
theorem flow_move {ms : List (Fin n × T)}
    (hcar : ∀ j, Carried s.ctxDone (s.inputs j) (marked j ms) (s.forwarder j)) {f : Forwarder T}
    (hself : Carried s.ctxDone (s.inputs i) (marked i ms) f) (j : Fin n) :
    Carried s.ctxDone (s.inputs j) (marked j ms) ((s.move i f).forwarder j) := by
  by_cases hj : j = i
  · subst hj
    rw [move_self]
    exact hself
  · rw [move_of_ne hj]
    exact hcar j

theorem Flow.step (h : Flow s) (hctrl : Control s) (hstep : Step s l s') : Flow s' := by
  obtain ⟨ms, hms, hcar⟩ := h
  cases hstep with
  | @produce i v hopen =>
    have hi := hcar i
    refine flow_of_at ms i hms ?_ fun j hj => ?_
    · simp only [State.setInput, update_self]
      cases hf : s.forwarder i with
      | unstarted | receiving | sending w =>
        rw [hf] at hi
        simp only [Carried] at hi ⊢
        rw [← hi]
        simp
      | returning | done =>
        rw [hf] at hi
        refine ⟨hi.1.trans (prefix_append _ _), fun hctx => ?_⟩
        -- Nothing is sent into a closed input.
        rw [(hi.2 hctx).2] at hopen
        cases hopen
    · simp only [State.setInput, update_of_ne hj]
      exact hcar j
  | @closeInput i hopen =>
    have hi := hcar i
    refine flow_of_at ms i hms ?_ fun j hj => ?_
    · simp only [State.setInput, update_self]
      cases hf : s.forwarder i with
      | unstarted | receiving | sending w =>
        rw [hf] at hi
        exact hi
      | returning | done =>
        rw [hf] at hi
        exact ⟨hi.1, fun hctx => ⟨(hi.2 hctx).1, rfl⟩⟩
    · simp only [State.setInput, update_of_ne hj]
      exact hcar j
  | cancel hctx =>
    refine ⟨ms, hms, fun j => ?_⟩
    have hj := hcar j
    show Carried true (s.inputs j) (marked j ms) (s.forwarder j)
    cases hf : s.forwarder j with
    | unstarted | receiving | sending w =>
      rw [hf] at hj
      exact hj
    | returning | done =>
      rw [hf] at hj
      exact ⟨hj.1, fun hfalse => by cases hfalse⟩
  | @take i v rest hf hp =>
    have hi := hcar i
    rw [hf] at hi
    refine flow_of_at ms i hms ?_ fun j hj => ?_
    · simp only [State.setInput, State.move, update_self]
      show marked i ms ++ v :: rest = (s.inputs i).sent
      rw [← hp]
      exact hi
    · simp only [State.setInput, State.move, update_of_ne hj]
      exact hcar j
  | @send i v c hf hs =>
    have hi := hcar i
    rw [hf] at hi
    obtain ⟨-, -, hbuf, -⟩ := send_eq_sent.mp hs
    refine flow_of_at (ms ++ [(i, v)]) i ?_ ?_ fun j hj => ?_
    · show (ms ++ [(i, v)]).map Prod.snd = s.received ++ c.buf
      rw [map_append, hms, hbuf, append_assoc]
      rfl
    · simp only [State.move, update_self]
      rw [marked_concat_self]
      show (marked i ms ++ [v]) ++ (s.inputs i).pending = (s.inputs i).sent
      rw [append_assoc]
      exact hi
    · simp only [State.move, update_of_ne hj]
      rw [marked_concat_ne hj.symm]
      exact hcar j
  | spawn hlt =>
    refine ⟨ms, hms, flow_move hcar ?_⟩
    have hi := hcar ⟨s.spawned, hlt⟩
    rw [(hctrl.spawned _).mpr le_rfl] at hi
    exact hi
  | @eof i hf hp hc =>
    refine ⟨ms, hms, flow_move hcar ?_⟩
    have hi := hcar i
    rw [hf] at hi
    have hall : marked i ms = (s.inputs i).sent := by
      rw [← show marked i ms ++ (s.inputs i).pending = (s.inputs i).sent from hi, hp, append_nil]
    exact ⟨hall ▸ prefix_refl _, fun _ => ⟨hall, hc⟩⟩
  | @quit i hf hctx =>
    refine ⟨ms, hms, flow_move hcar ⟨(hcar i).prefix_sent, fun hfalse => ?_⟩⟩
    rw [hctx] at hfalse
    cases hfalse
  | @wgDone i hf =>
    refine ⟨ms, hms, flow_move hcar ?_⟩
    have hi := hcar i
    rw [hf] at hi
    exact hi
  | recv hc hr =>
    refine ⟨ms, ?_, hcar⟩
    rw [hms, (recv_eq_got.mp hr).1]
    simp
  | @close c hc hclose =>
    refine ⟨ms, ?_, hcar⟩
    rw [hms, (close_eq_some.mp hclose).2.1]
  | launch hall hc | wait hc hw | closePanic hc hclose | sendPanic hf hs | recvEnd hc hr he =>
    exact ⟨ms, hms, hcar⟩

end Otedama.Engine.FanIn
