import Otedama.Framework.Machine
import Mathlib.Data.List.Nodup
import Mathlib.Data.List.Range

/-! # Messages before authorization

What the pool sends before `mining.authorize` is answered is stashed, and
replayed by `Negotiate` once it is. The read loop and `Negotiate` run
concurrently: the read loop loads `authorized` and, depending on it,
stashes its message, or drains the stash, replays it, and applies its
message; `Negotiate` stores `authorized`, drains the stash and replays it.

`preAuthMu` is held while the stash is drained, but not while it is
replayed, and the load and the stashing are two steps. So the read loop
can overtake the replay, and it can stash a message that nobody drains.
The module says exactly which steps break the order of the wire
(`wire_order_iff`). -/

namespace Otedama.Poolproto

open List

/-! ## The source -/

/-- The methods of the pool that wait for authorization. -/
inductive PoolMethod where
  | notify
  | setDifficulty
  | setExtranonce
  | showMessage
  | clientReconnect
  | miningReconnect
  | setVersionMask
  deriving DecidableEq, Repr

/-- The `switch` of `dispatch`; other methods are ignored. -/
def PoolMethod.ofText : String → Option PoolMethod
  | "mining.notify" => some .notify
  | "mining.set_difficulty" => some .setDifficulty
  | "mining.set_extranonce" => some .setExtranonce
  | "client.show_message" => some .showMessage
  | "client.reconnect" => some .clientReconnect
  | "mining.reconnect" => some .miningReconnect
  | "mining.set_version_mask" => some .setVersionMask
  | _ => none

def preAuthCap : Nat := 16

/-- The critical section of `stashPreAuth`: a full stash loses its oldest message. -/
def stashPreAuth {α : Type} (preAuthQ : List α) (m : α) : List α :=
  (if preAuthCap ≤ preAuthQ.length then preAuthQ.drop 1 else preAuthQ) ++ [m]

/-- A message, with its number on the wire. -/
structure WireMsg (π : Type) where
  number : Nat
  method : PoolMethod
  params : π
  deriving DecidableEq, Repr

/-- Where the read loop stands in `dispatch`. -/
inductive DispatchPhase (π : Type) where
  | idle
  /-- About to load `authorized`. -/
  | loading (m : WireMsg π)
  | stashing (m : WireMsg π)
  /-- About to drain the stash in `flushPreAuth`. -/
  | draining (m : WireMsg π)
  /-- What is left of the drained messages, and then its own. -/
  | replaying (queue : List (WireMsg π)) (m : WireMsg π)
  deriving DecidableEq, Repr

/-- Where `Negotiate` stands; it has finished when nothing is left to replay. -/
inductive NegotiatePhase (π : Type) where
  /-- About to store `authorized`. -/
  | handshaking
  | draining
  | replaying (queue : List (WireMsg π))
  deriving DecidableEq, Repr

structure PreAuth (π : Type) where
  authorized : Bool
  preAuthQ : List (WireMsg π)
  reader : DispatchPhase π
  negotiator : NegotiatePhase π
  /-- How many messages have arrived. -/
  arrived : Nat
  deriving DecidableEq, Repr

def PreAuth.start (π : Type) : PreAuth π := ⟨false, [], .idle, .handshaking, 0⟩

/-- A line is read, or one of the two threads takes its next step. -/
inductive PreAuthMove (π : Type) where
  | arrive (method : String) (params : π)
  | read
  | negotiate

inductive PreAuthEvent (π : Type) where
  | arrived (m : WireMsg π)
  | stashed (m : WireMsg π)
  | applied (m : WireMsg π)
  deriving DecidableEq, Repr

namespace PreAuth

variable {π : Type}

/-- The next step of `dispatch`. -/
def readStep (s : PreAuth π) : PreAuth π × List (PreAuthEvent π) :=
  match s.reader with
  | .idle => (s, [])
  | .loading m =>
      ({ s with reader := if s.authorized then .draining m else .stashing m }, [])
  | .stashing m =>
      ({ s with preAuthQ := stashPreAuth s.preAuthQ m, reader := .idle }, [.stashed m])
  | .draining m => ({ s with preAuthQ := [], reader := .replaying s.preAuthQ m }, [])
  | .replaying (x :: queue) m => ({ s with reader := .replaying queue m }, [.applied x])
  | .replaying [] m => ({ s with reader := .idle }, [.applied m])

/-- The next step of the end of `Negotiate`. -/
def negotiateStep (s : PreAuth π) : PreAuth π × List (PreAuthEvent π) :=
  match s.negotiator with
  | .handshaking => ({ s with authorized := true, negotiator := .draining }, [])
  | .draining => ({ s with preAuthQ := [], negotiator := .replaying s.preAuthQ }, [])
  | .replaying (x :: queue) => ({ s with negotiator := .replaying queue }, [.applied x])
  | .replaying [] => (s, [])

/-- The read loop reads the next line once it is done with the last one. -/
def arrive (s : PreAuth π) (method : String) (params : π) : PreAuth π × List (PreAuthEvent π) :=
  match s.reader, PoolMethod.ofText method with
  | .idle, some gated =>
      let m : WireMsg π := ⟨s.arrived, gated, params⟩
      ({ s with reader := .loading m, arrived := s.arrived + 1 }, [.arrived m])
  | _, _ => (s, [])

end PreAuth

def preAuth (π : Type) : Machine (PreAuth π) (PreAuthMove π) (PreAuthEvent π) where
  step s
    | .arrive method params => s.arrive method params
    | .read => s.readStep
    | .negotiate => s.negotiateStep

/-! ## The order of the wire -/

section

variable {π : Type} {es : List (PreAuthEvent π)} {s : PreAuth π}

def wireOf (es : List (PreAuthEvent π)) : List (WireMsg π) :=
  es.filterMap fun
    | .arrived m => some m
    | _ => none

def appliedOf (es : List (PreAuthEvent π)) : List (WireMsg π) :=
  es.filterMap fun
    | .applied m => some m
    | _ => none

def stashedOf (es : List (PreAuthEvent π)) : List (WireMsg π) :=
  es.filterMap fun
    | .stashed m => some m
    | _ => none

/-- Both threads are idle. -/
def PreAuth.Idle (s : PreAuth π) : Prop := s.reader = .idle ∧ s.negotiator = .replaying []

/-- Messages are applied in the order of the wire, each once; and when both
threads are idle all of them have been, and the stash is empty. -/
structure WireOrder (es : List (PreAuthEvent π)) (s : PreAuth π) : Prop where
  order : appliedOf es <+: wireOf es
  complete : s.Idle → appliedOf es = wireOf es ∧ s.preAuthQ = []

/-- What `Negotiate` still has to replay. -/
def NegotiatePhase.todo : NegotiatePhase π → List (WireMsg π)
  | .replaying queue => queue
  | _ => []

/-- What the read loop has drained and still has to replay. -/
def DispatchPhase.drained : DispatchPhase π → List (WireMsg π)
  | .replaying queue _ => queue
  | _ => []

/-- The message that the read loop is dispatching. -/
def DispatchPhase.own : DispatchPhase π → List (WireMsg π)
  | .idle => []
  | .loading m | .stashing m | .draining m | .replaying _ m => [m]

/-- The steps that keep the order: the read loop applies nothing while
`Negotiate` replays, and it stashes nothing once `Negotiate` has finished;
and `Negotiate` does not finish while a stashed message waits and the read
loop has nothing to do. -/
def KeepsOrder (s : PreAuth π) : PreAuthMove π → Prop
  | .arrive _ _ => True
  | .read =>
      match s.reader with
      | .replaying _ _ => s.negotiator.todo = []
      | .stashing _ => s.negotiator ≠ .replaying []
      | _ => True
  | .negotiate =>
      match s.negotiator with
      | .replaying [_] => ¬ (s.reader = .idle ∧ s.preAuthQ ≠ [])
      | _ => True

/-- Where every message is. -/
structure WireInv (es : List (PreAuthEvent π)) (s : PreAuth π) : Prop where
  /-- `Negotiate` has the oldest messages that are not applied; then come those
      that the read loop has drained, those in the stash, and its own. -/
  line : appliedOf es ++ (s.negotiator.todo ++ (s.reader.drained ++ (s.preAuthQ ++ s.reader.own)))
    = wireOf es
  numbered : (wireOf es).map WireMsg.number = List.range s.arrived
  clear : ∀ queue m, s.reader = .replaying queue m → s.preAuthQ = []
  idle : s.Idle → s.preAuthQ = []
  stashes : s.preAuthQ.length ≤ (stashedOf es).length

theorem WireInv.wireOrder (h : WireInv es s) : WireOrder es s := by
  constructor
  · rw [← h.line]
    exact prefix_append _ _
  · intro hidle
    have hempty := h.idle hidle
    have hline := h.line
    rw [hidle.1, hidle.2, hempty] at hline
    exact ⟨(append_nil _).symm.trans hline, hempty⟩

theorem wireOf_append (es fs : List (PreAuthEvent π)) : wireOf (es ++ fs) = wireOf es ++ wireOf fs :=
  filterMap_append

theorem appliedOf_append (es fs : List (PreAuthEvent π)) :
    appliedOf (es ++ fs) = appliedOf es ++ appliedOf fs := filterMap_append

theorem stashedOf_append (es fs : List (PreAuthEvent π)) :
    stashedOf (es ++ fs) = stashedOf es ++ stashedOf fs := filterMap_append

/-- A message is only once on the wire. -/
theorem WireInv.nodup (h : WireInv es s) : (wireOf es).Nodup := by
  have hnumbers : ((wireOf es).map WireMsg.number).Nodup := by
    rw [h.numbered]
    exact nodup_range
  exact List.Nodup.of_map _ hnumbers

/-- Nothing new is on the wire. -/
theorem WireInv.numbered_append {new : List (PreAuthEvent π)} (h : WireInv es s)
    (hnew : wireOf new = []) : (wireOf (es ++ new)).map WireMsg.number = range s.arrived := by
  rw [wireOf_append, hnew, append_nil]
  exact h.numbered

theorem WireInv.stashes_append (h : WireInv es s) (new : List (PreAuthEvent π)) :
    s.preAuthQ.length ≤ (stashedOf (es ++ new)).length := by
  rw [stashedOf_append, length_append]
  exact h.stashes.trans (Nat.le_add_right _ _)

theorem WireInv.start : WireInv [] (PreAuth.start π) := by
  refine ⟨rfl, rfl, ?_, fun _ => rfl, le_rfl⟩
  intro queue m hreader
  cases hreader

/-! ## What a step does -/

theorem arrive_inv (h : WireInv es s) (method : String) (params : π) :
    WireInv (es ++ (s.arrive method params).2) (s.arrive method params).1 := by
  cases hreader : s.reader with
  | idle =>
    cases hmethod : PoolMethod.ofText method with
    | none =>
      simp only [PreAuth.arrive, hreader, hmethod, append_nil]
      exact h
    | some gated =>
      simp only [PreAuth.arrive, hreader, hmethod]
      have hline := h.line
      rw [hreader] at hline
      refine ⟨?_, ?_, ?_, ?_, ?_⟩
      · rw [appliedOf_append, wireOf_append, ← hline]
        simp [appliedOf, wireOf, DispatchPhase.drained, DispatchPhase.own]
      · rw [wireOf_append, map_append, h.numbered, range_succ]
        rfl
      · intro queue m heq
        cases heq
      · intro hidle
        cases hidle.1
      · exact h.stashes_append _
  | loading m | stashing m | draining m | replaying queue m =>
    simp only [PreAuth.arrive, hreader, append_nil]
    exact h

/-- With at most 16 stashed messages the stash loses none. -/
theorem stashPreAuth_of_lt {α : Type} {preAuthQ : List α} {m : α}
    (h : preAuthQ.length < preAuthCap) : stashPreAuth preAuthQ m = preAuthQ ++ [m] := by
  rw [stashPreAuth, if_neg (by omega)]

section

variable (h : WireInv es s)

include h

/-- The read loop applies the next message when `Negotiate` has none left. -/
theorem WireInv.applied {x : WireMsg π} {reader : DispatchPhase π} (htodo : s.negotiator.todo = [])
    (hclear : s.preAuthQ = [])
    (hnext : s.reader.drained ++ s.reader.own = x :: (reader.drained ++ reader.own)) :
    WireInv (es ++ [.applied x]) { s with reader := reader } := by
  have hline := h.line
  rw [htodo, hclear, nil_append, nil_append, hnext] at hline
  refine ⟨?_, h.numbered_append rfl, fun _ _ _ => hclear, fun _ => hclear, h.stashes_append _⟩
  show appliedOf (es ++ [.applied x]) ++ (s.negotiator.todo ++ (reader.drained
    ++ (s.preAuthQ ++ reader.own))) = wireOf (es ++ [.applied x])
  rw [appliedOf_append, wireOf_append, ← hline, htodo, hclear]
  simp [appliedOf, wireOf]

/-- The read loop stashes its message, and `Negotiate` is still at work. -/
theorem WireInv.stash {m : WireMsg π} (hreader : s.reader = .stashing m)
    (hbusy : s.negotiator ≠ .replaying [])
    (hcap : (stashedOf (es ++ [.stashed m])).length ≤ preAuthCap) :
    WireInv (es ++ [.stashed m])
      { s with preAuthQ := stashPreAuth s.preAuthQ m, reader := .idle } := by
  have hlt : s.preAuthQ.length < preAuthCap := by
    rw [stashedOf_append, length_append] at hcap
    have hle := h.stashes
    have hone : (stashedOf [PreAuthEvent.stashed m]).length = 1 := rfl
    omega
  have hline := h.line
  rw [hreader] at hline
  rw [stashPreAuth_of_lt hlt]
  refine ⟨?_, h.numbered_append rfl, ?_, fun hidle => absurd hidle.2 hbusy, ?_⟩
  · rw [appliedOf_append, wireOf_append, ← hline]
    simp [appliedOf, wireOf, DispatchPhase.drained, DispatchPhase.own]
  · intro queue m' heq
    cases heq
  · rw [stashedOf_append, length_append, length_append]
    exact Nat.add_le_add_right h.stashes 1

theorem readStep_inv (hkeeps : KeepsOrder s .read)
    (hcap : (stashedOf (es ++ s.readStep.2)).length ≤ preAuthCap) :
    WireInv (es ++ s.readStep.2) s.readStep.1 := by
  have hline := h.line
  cases hreader : s.reader with
  | idle =>
    simp only [PreAuth.readStep, hreader, append_nil]
    exact h
  | loading m =>
    simp only [PreAuth.readStep, hreader, append_nil]
    rw [hreader] at hline
    -- Whichever way the load goes, the message stays where it is.
    refine ⟨?_, h.numbered, ?_, ?_, h.stashes⟩
    · cases s.authorized <;> exact hline
    · intro queue m' heq
      cases hauth : s.authorized <;> simp [hauth] at heq
    · intro hidle
      cases hauth : s.authorized <;> simp [PreAuth.Idle, hauth] at hidle
  | stashing m =>
    simp only [PreAuth.readStep, hreader] at hcap ⊢
    simp only [KeepsOrder, hreader] at hkeeps
    exact h.stash hreader hkeeps hcap
  | draining m =>
    simp only [PreAuth.readStep, hreader, append_nil]
    rw [hreader] at hline
    refine ⟨?_, h.numbered, fun _ _ _ => rfl, fun _ => rfl, Nat.zero_le _⟩
    rw [← hline]
    simp [DispatchPhase.drained, DispatchPhase.own]
  | replaying queue m =>
    simp only [KeepsOrder, hreader] at hkeeps
    have hclear := h.clear queue m hreader
    cases queue with
    | nil | cons x queue =>
      simp only [PreAuth.readStep, hreader]
      exact h.applied hkeeps hclear (by rw [hreader]; rfl)

theorem negotiateStep_inv (hkeeps : KeepsOrder s .negotiate) :
    WireInv (es ++ s.negotiateStep.2) s.negotiateStep.1 := by
  have hline := h.line
  cases hneg : s.negotiator with
  | handshaking =>
    simp only [PreAuth.negotiateStep, hneg, append_nil]
    rw [hneg] at hline
    refine ⟨hline, h.numbered, h.clear, ?_, h.stashes⟩
    intro hidle
    cases hidle.2
  | draining =>
    simp only [PreAuth.negotiateStep, hneg, append_nil]
    rw [hneg] at hline
    refine ⟨?_, h.numbered, fun _ _ _ => rfl, fun _ => rfl, Nat.zero_le _⟩
    -- If the read loop has drained messages, then the stash is empty.
    rw [← hline]
    cases hreader : s.reader with
    | replaying queue m =>
      rw [h.clear queue m hreader]
      rfl
    | idle | loading m | stashing m | draining m =>
      simp [NegotiatePhase.todo, DispatchPhase.drained]
  | replaying queue =>
    rw [hneg] at hline
    cases queue with
    | nil =>
      simp only [PreAuth.negotiateStep, hneg, append_nil]
      exact h
    | cons x queue =>
      simp only [PreAuth.negotiateStep, hneg]
      refine ⟨?_, ?_, h.clear, ?_, ?_⟩
      · rw [appliedOf_append, wireOf_append, ← hline]
        simp [appliedOf, wireOf, NegotiatePhase.todo]
      · exact h.numbered_append rfl
      · -- Was this the last one to replay, the stash must not hold a late message.
        rintro ⟨hidle, hdone⟩
        cases hdone
        simp only [KeepsOrder, hneg] at hkeeps
        by_contra hne
        exact hkeeps ⟨hidle, hne⟩
      · exact h.stashes_append _

/-- The read loop overtakes the replay. -/
theorem not_prefix_of_overtaking {x y : WireMsg π} {ys : List (WireMsg π)}
    (htodo : s.negotiator.todo = y :: ys) (hx : x ∈ s.reader.drained ++ s.reader.own) :
    ¬ appliedOf es ++ [x] <+: wireOf es := by
  intro hle
  have hline := h.line
  rw [htodo, cons_append] at hline
  have hnodup := h.nodup
  -- The next message of the wire is the one that `Negotiate` is about to apply.
  rw [← hline, prefix_append_right_inj] at hle
  obtain ⟨rfl, -⟩ := cons_prefix_cons.mp hle
  rw [← hline] at hnodup
  have hnot := (nodup_cons.mp (nodup_append.mp hnodup).2.1).1
  apply hnot
  obtain hx | hx := mem_append.mp hx
  · exact mem_append_right _ (mem_append_left _ hx)
  · exact mem_append_right _ (mem_append_right _ (mem_append_right _ hx))

theorem keepsOrder_of_read (hafter : WireOrder (es ++ s.readStep.2) s.readStep.1) :
    KeepsOrder s .read := by
  cases hreader : s.reader with
  | idle => simp only [KeepsOrder, hreader]
  | loading m => simp only [KeepsOrder, hreader]
  | draining m => simp only [KeepsOrder, hreader]
  | stashing m =>
    simp only [KeepsOrder, hreader]
    intro hdone
    -- Both threads are idle after this step, and the message is in the stash.
    simp only [PreAuth.readStep, hreader] at hafter
    have hempty := (hafter.complete ⟨rfl, hdone⟩).2
    simp [stashPreAuth] at hempty
  | replaying queue m =>
    simp only [KeepsOrder, hreader]
    cases htodo : s.negotiator.todo with
    | nil => rfl
    | cons y ys =>
      have horder := hafter.order
      rw [appliedOf_append, wireOf_append] at horder
      cases queue with
      | nil =>
        simp only [PreAuth.readStep, hreader] at horder
        refine absurd ?_ (not_prefix_of_overtaking h htodo (x := m) (by simp [hreader,
          DispatchPhase.drained, DispatchPhase.own]))
        simpa [appliedOf, wireOf] using horder
      | cons x queue =>
        simp only [PreAuth.readStep, hreader] at horder
        refine absurd ?_ (not_prefix_of_overtaking h htodo (x := x) (by simp [hreader,
          DispatchPhase.drained, DispatchPhase.own]))
        simpa [appliedOf, wireOf] using horder

end

theorem keepsOrder_of_negotiate (hafter : WireOrder (es ++ s.negotiateStep.2) s.negotiateStep.1) :
    KeepsOrder s .negotiate := by
  show match s.negotiator with
    | .replaying [_] => ¬ (s.reader = .idle ∧ s.preAuthQ ≠ [])
    | _ => True
  split
  · rename_i x hneg
    rintro ⟨hidle, hne⟩
    simp only [PreAuth.negotiateStep, hneg] at hafter
    exact hne (hafter.complete ⟨hidle, rfl⟩).2
  · trivial

/-! ## Every interleaving -/

theorem preAuth_step_inv (h : WireInv es s) {move : PreAuthMove π} (hkeeps : KeepsOrder s move)
    (hcap : (stashedOf (es ++ ((preAuth π).step s move).2)).length ≤ preAuthCap) :
    WireInv (es ++ ((preAuth π).step s move).2) ((preAuth π).step s move).1 := by
  cases move with
  | arrive method params => exact arrive_inv h method params
  | read => exact readStep_inv h hkeeps hcap
  | negotiate => exact negotiateStep_inv h hkeeps

theorem keepsOrder_of_step (h : WireInv es s) {move : PreAuthMove π}
    (hafter : WireOrder (es ++ ((preAuth π).step s move).2) ((preAuth π).step s move).1) :
    KeepsOrder s move := by
  cases move with
  | arrive method params => trivial
  | read => exact keepsOrder_of_read h hafter
  | negotiate => exact keepsOrder_of_negotiate hafter

theorem length_stashedOf_le {moves pre : List (PreAuthMove π)} (hle : pre <+: moves) :
    (stashedOf ((preAuth π).outputs (PreAuth.start π) pre)).length
      ≤ (stashedOf ((preAuth π).outputs (PreAuth.start π) moves)).length := by
  obtain ⟨rest, rfl⟩ := hle
  rw [Machine.outputs_append, stashedOf_append, length_append]
  exact Nat.le_add_right _ _

/-- **The order of the wire.**  With at most 16 messages stashed before
authorization, an interleaving keeps the order of the wire throughout
exactly when each of its steps does. -/
theorem wire_order_iff (moves : List (PreAuthMove π))
    (hcap : (stashedOf ((preAuth π).outputs (PreAuth.start π) moves)).length ≤ preAuthCap) :
    (∀ pre, pre <+: moves → WireOrder ((preAuth π).outputs (PreAuth.start π) pre)
        ((preAuth π).run (PreAuth.start π) pre)) ↔
      (preAuth π).Meets KeepsOrder (PreAuth.start π) moves := by
  have hsnoc : ∀ pre move, (preAuth π).outputs (PreAuth.start π) (pre ++ [move])
      = (preAuth π).outputs (PreAuth.start π) pre
        ++ ((preAuth π).step ((preAuth π).run (PreAuth.start π) pre) move).2 := by
    intro pre move
    rw [Machine.outputs_append, Machine.outputs_cons, Machine.outputs_nil, List.append_nil]
  -- A step does what it should when the order holds after it.
  have hexact : (∀ pre move, pre ++ [move] <+: moves →
      WireOrder ((preAuth π).outputs (PreAuth.start π) (pre ++ [move]))
        ((preAuth π).step ((preAuth π).run (PreAuth.start π) pre) move).1) ↔
      (preAuth π).Meets KeepsOrder (PreAuth.start π) moves := by
    refine (preAuth π).steps_exact_within
      (I := fun hist s => s = (preAuth π).run (PreAuth.start π) hist ∧
        WireInv ((preAuth π).outputs (PreAuth.start π) hist) s)
      (G := fun hist s move => WireOrder ((preAuth π).outputs (PreAuth.start π) (hist ++ [move]))
        ((preAuth π).step s move).1)
      (D := fun hist =>
        (stashedOf ((preAuth π).outputs (PreAuth.start π) hist)).length ≤ preAuthCap)
      ⟨rfl, .start⟩ ?_ ?_ moves fun pre hle => (length_stashedOf_le hle).trans hcap
    · rintro hist s move hD ⟨rfl, hinv⟩
      rw [hsnoc] at hD ⊢
      exact ⟨keepsOrder_of_step hinv, fun hkeeps => (preAuth_step_inv hinv hkeeps hD).wireOrder⟩
    · rintro hist s move hD ⟨rfl, hinv⟩ hkeeps
      rw [hsnoc] at hD ⊢
      refine ⟨?_, preAuth_step_inv hinv hkeeps hD⟩
      rw [Machine.run_append, Machine.run_cons, Machine.run_nil]
  rw [← hexact]
  constructor
  · intro h pre move hle
    have hafter := h _ hle
    rwa [Machine.run_append, Machine.run_cons, Machine.run_nil] at hafter
  · intro h pre hle
    cases pre using List.reverseRecOn with
    | nil => exact WireInv.start.wireOrder
    | append_singleton pre move =>
      rw [Machine.run_append, Machine.run_cons, Machine.run_nil]
      exact h pre move hle

/-- A message before authorization and one after `Negotiate` has finished. -/
theorem sequential_wire_order :
    let moves : List (PreAuthMove Unit) :=
      [.arrive "mining.set_difficulty" (), .read, .read, .negotiate, .negotiate, .negotiate,
        .arrive "mining.notify" (), .read, .read, .read]
    ∀ pre, pre <+: moves → WireOrder ((preAuth Unit).outputs (PreAuth.start Unit) pre)
      ((preAuth Unit).run (PreAuth.start Unit) pre) := by
  intro moves
  have hcap : (stashedOf ((preAuth Unit).outputs (PreAuth.start Unit) moves)).length
      ≤ preAuthCap := by decide
  refine (wire_order_iff moves hcap).mpr ?_
  simp [moves, Machine.Meets, preAuth, KeepsOrder, PreAuth.start, PreAuth.arrive,
    PreAuth.readStep, PreAuth.negotiateStep, PoolMethod.ofText, stashPreAuth, preAuthCap,
    NegotiatePhase.todo]

/-- The read loop loads `authorized` before `Negotiate` stores it, and stashes
its message after `Negotiate` has drained the stash. -/
def lateStash : List (PreAuthMove Unit) :=
  [.arrive "mining.notify" (), .read, .negotiate, .negotiate, .read]

/-- A message arrives while `Negotiate` replays the stash. -/
def overtaking : List (PreAuthMove Unit) :=
  [.arrive "mining.set_difficulty" (), .read, .read, .negotiate, .negotiate,
    .arrive "mining.notify" (), .read, .read, .read, .negotiate]

/-- In the first run both threads end up idle with the message in the stash,
not applied; in the second the newer message is applied first. -/
theorem wire_order_broken :
    ((preAuth Unit).run (PreAuth.start Unit) lateStash).Idle ∧
    ((preAuth Unit).run (PreAuth.start Unit) lateStash).preAuthQ = [⟨0, .notify, ()⟩] ∧
    appliedOf ((preAuth Unit).outputs (PreAuth.start Unit) lateStash) = [] ∧
    wireOf ((preAuth Unit).outputs (PreAuth.start Unit) overtaking)
      = [⟨0, .setDifficulty, ()⟩, ⟨1, .notify, ()⟩] ∧
    appliedOf ((preAuth Unit).outputs (PreAuth.start Unit) overtaking)
      = [⟨1, .notify, ()⟩, ⟨0, .setDifficulty, ()⟩] :=
  ⟨⟨rfl, rfl⟩, rfl, rfl, rfl, rfl⟩

end

end Otedama.Poolproto
