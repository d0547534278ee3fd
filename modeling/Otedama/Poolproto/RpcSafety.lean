import Otedama.Poolproto.Rpc

/-! # Calls are answered at most once, and by their own response

Every step either leaves a channel alone or is made by its holder, and
passes the channel on. From this it follows that a channel is closed at
most once, that nothing is sent on it twice or after it was closed, that
the read loop finds room for what it delivers, and that a call that has
returned is not in the map. -/

namespace Otedama.Poolproto

open List AList Function

variable {β : Type} {es : List (RpcEvent β)} {s s' : Rpc β}

/-! ## The events so far -/

/-- A channel is closed once, and sent to before that and once. -/
def Orderly (a b : RpcEvent β) : Prop :=
  ∀ k, (∀ r, b = .sent k r → a.uses k = false) ∧ (b = .closed k → a ≠ .closed k)

theorem orderly_of_unused {a b : RpcEvent β} (h : ∀ k, b.uses k = false) : Orderly a b := by
  intro k
  constructor
  · rintro r rfl
    exact absurd (h k) (by simp [RpcEvent.uses])
  · rintro rfl
    exact absurd (h k) (by simp [RpcEvent.uses])

/-- The program would block or panic. -/
def RpcEvent.isFault : RpcEvent β → Bool
  | .blocked _ | .sendOnClosed _ | .closeOfClosed _ => true
  | _ => false

structure History (es : List (RpcEvent β)) (s : Rpc β) : Prop where
  numbered : (responsesOf es).map RpcResponse.number = List.range s.responses
  orderly : es.Pairwise Orderly
  faultless : ∀ e ∈ es, e.isFault = false
  replies : ∀ k r, .returned k (.response r) ∈ es → r.id = k + 1 ∧ r ∈ responsesOf es
  returned : ∀ k result, .returned k result ∈ es →
    ∃ c, s.calls k = some c ∧ c.phase = .returned

structure RpcInv (es : List (RpcEvent β)) (s : Rpc β) : Prop where
  owners : Owners es s
  history : History es s

theorem RpcInv.stay (h : RpcInv es s) : RpcInv (es ++ []) s := by
  rw [append_nil]
  exact h

/-- A call that has returned stays so. -/
def Settled (s s' : Rpc β) : Prop :=
  ∀ k c, s.calls k = some c → c.phase = .returned →
    ∃ c', s'.calls k = some c' ∧ c'.phase = .returned

theorem settled_of_calls (h : s'.calls = s.calls) : Settled s s' := by
  intro k c hk hret
  exact ⟨c, by rw [h, hk], hret⟩

variable {k : Nat} {c c' : RpcCall β}

/-- One call is changed, and does not come back. -/
theorem settled_of_update (hcalls : s'.calls = update s.calls k (some c'))
    (hk : ∀ c, s.calls k = some c → c.phase = .returned → c'.phase = .returned) : Settled s s' := by
  intro j c hj hret
  rw [hcalls]
  by_cases hjk : j = k
  · subst hjk
    exact ⟨c', update_self .., hk c hj hret⟩
  · exact ⟨c, by rw [update_of_ne hjk, hj], hret⟩

theorem settled_of_phase (hcalls : s'.calls = update s.calls k (some c'))
    (hk : s.calls k = some c) (hphase : c'.phase = c.phase) : Settled s s' := by
  refine settled_of_update hcalls ?_
  intro d hd hret
  cases hk.symm.trans hd
  exact hphase.trans hret

theorem History.quiet (h : History es s) (hresponses : s'.responses = s.responses)
    (hsettled : Settled s s') : History es s' := by
  refine ⟨by rw [hresponses]; exact h.numbered, h.orderly, h.faultless, h.replies, ?_⟩
  intro k result hmem
  obtain ⟨c, hk, hret⟩ := h.returned k result hmem
  exact hsettled k c hk hret

/-- One more event. -/
theorem History.concat {e : RpcEvent β} (h : History es s) (hsettled : Settled s s')
    (hnumbered : (responsesOf (es ++ [e])).map RpcResponse.number = range s'.responses)
    (horderly : ∀ a ∈ es, Orderly a e) (hfault : e.isFault = false)
    (hreply : ∀ k r, e = .returned k (.response r) → r.id = k + 1 ∧ r ∈ responsesOf es)
    (hreturned : ∀ k result, e = .returned k result →
      ∃ c, s'.calls k = some c ∧ c.phase = .returned) : History (es ++ [e]) s' := by
  refine ⟨hnumbered, ?_, ?_, ?_, ?_⟩
  · rw [pairwise_append]
    refine ⟨h.orderly, pairwise_singleton _ _, ?_⟩
    intro a ha b hb
    rw [mem_singleton.mp hb]
    exact horderly a ha
  · intro x hx
    obtain hx | hx := mem_append.mp hx
    · exact h.faultless x hx
    · rw [mem_singleton.mp hx]
      exact hfault
  · intro k r hmem
    obtain hmem | hmem := mem_append.mp hmem
    · exact ⟨(h.replies k r hmem).1, mem_responsesOf_append (h.replies k r hmem).2 _⟩
    · obtain ⟨hown, harrived⟩ := hreply k r (mem_singleton.mp hmem).symm
      exact ⟨hown, mem_responsesOf_append harrived _⟩
  · intro k result hmem
    obtain hmem | hmem := mem_append.mp hmem
    · obtain ⟨c, hk, hret⟩ := h.returned k result hmem
      exact hsettled k c hk hret
    · exact hreturned k result (mem_singleton.mp hmem).symm

/-- An event that is no response leaves the numbering alone. -/
theorem History.numbered_concat {e : RpcEvent β} (h : History es s)
    (hresponses : s'.responses = s.responses) (he : responsesOf [e] = []) :
    (responsesOf (es ++ [e])).map RpcResponse.number = range s'.responses := by
  rw [responsesOf_append, he, append_nil, hresponses]
  exact h.numbered

/-- A call returns. -/
theorem History.return {result : RpcResult β} (h : History es s)
    (hresponses : s'.responses = s.responses)
    (hcalls : s'.calls = update s.calls k (some c)) (hphase : c.phase = .returned)
    (hreply : ∀ r, result = .response r → r.id = k + 1 ∧ r ∈ responsesOf es) :
    History (es ++ [.returned k result]) s' := by
  refine h.concat (settled_of_update hcalls fun _ _ _ => hphase)
    (h.numbered_concat hresponses rfl) ?_ rfl ?_ ?_
  · intro a _
    exact orderly_of_unused fun _ => rfl
  · intro j r heq
    cases heq
    exact hreply r rfl
  · intro j res heq
    cases heq
    exact ⟨c, by rw [hcalls, update_self], hphase⟩

/-- A channel is closed for the first time. -/
theorem History.close (h : History es s) (hresponses : s'.responses = s.responses)
    (hk : s.calls k = some c) (hcalls : s'.calls = update s.calls k (some c'))
    (hphase : c'.phase = c.phase) (hfirst : .closed k ∉ es) : History (es ++ [.closed k]) s' := by
  refine h.concat (settled_of_phase hcalls hk hphase)
    (h.numbered_concat hresponses rfl) ?_ rfl nofun nofun
  · intro a ha j
    refine ⟨nofun, ?_⟩
    intro heq
    cases heq
    rintro rfl
    exact hfirst ha

/-- A response arrives. -/
theorem History.respond {r : RpcResponse β} (h : History es s) (hcalls : s'.calls = s.calls)
    (hnumber : r.number = s.responses) (hresponses : s'.responses = s.responses + 1) :
    History (es ++ [.arrived r]) s' := by
  refine h.concat (settled_of_calls hcalls) ?_ ?_ rfl nofun nofun
  · rw [responsesOf_append, map_append, h.numbered, hresponses, range_succ, ← hnumber]
    rfl
  · intro a _
    exact orderly_of_unused fun _ => rfl

/-- A response is sent on a channel that nobody has used. -/
theorem History.send {r : RpcResponse β} (h : History es s)
    (hresponses : s'.responses = s.responses) (hk : s.calls k = some c)
    (hcalls : s'.calls = update s.calls k (some c')) (hphase : c'.phase = c.phase)
    (hunused : ∀ e ∈ es, e.uses k = false) : History (es ++ [.sent k r]) s' := by
  refine h.concat (settled_of_phase hcalls hk hphase)
    (h.numbered_concat hresponses rfl) ?_ rfl nofun nofun
  · intro a ha j
    refine ⟨?_, nofun⟩
    intro x heq
    cases heq
    exact hunused a ha

/-! ## The steps of a call -/

/-- Only the record of `k` and perhaps its entry in the map change. -/
theorem elsewhere_setCall {new : List (RpcEvent β)} (hcalls : s'.calls = update s.calls k (some c'))
    (hpending : ∀ j, j ≠ k → s'.pending.lookup (j + 1) = s.pending.lookup (j + 1))
    (hduty : ∀ j, j ≠ k → s'.reader.duty j = s.reader.duty j)
    (hnew : ∀ j, j ≠ k → ∀ e ∈ new, e.uses j = false) : Elsewhere k s s' new := by
  refine ⟨?_, hpending, hduty, hnew⟩
  intro j hjk
  rw [hcalls, update_of_ne hjk]

theorem lookup_erase_succ_of_ne {m : GoMap Nat Nat} {j : Nat} (h : j ≠ k) :
    (m.erase (k + 1)).lookup (j + 1) = m.lookup (j + 1) :=
  lookup_erase_ne (by omega)

theorem Owners.keys_erase (h : Owners es s) (id : Nat) :
    ∀ id' j, (s.pending.erase id).lookup id' = some j → id' = j + 1 ∧ j < s.nextID := by
  intro id' j hj
  by_cases hid : id' = id
  · rw [hid, lookup_erase] at hj
    cases hj
  · rw [lookup_erase_ne hid] at hj
    exact h.keys id' j hj

/-- The record of one call changes, and nothing else. -/
theorem Owners.setCall {new : List (RpcEvent β)} (h : Owners es s) (hk : s.calls k = some c)
    (hnew : ∀ j, j ≠ k → ∀ e ∈ new, e.uses j = false) (hinv : CallInv (es ++ new) s k c') :
    Owners (es ++ new) (s.setCall k c') := by
  refine h.update (elsewhere_setCall rfl (fun _ _ => rfl) (fun _ _ => rfl) hnew)
    (update_self ..) (fun _ _ => Iff.rfl) (h.lt_nextID hk) h.keys ?_
  exact ⟨hinv.id, by cases hinv.holder with
    | caller phase unmapped away unused => exact .caller phase unmapped away unused
    | map mapped phase away unused => exact .map mapped phase away unused
    | sender r duty own arrived unmapped phase unused =>
      exact .sender r duty own arrived unmapped phase unused
    | closer duty unmapped phase opened events => exact .closer duty unmapped phase opened events
    | nobody unmapped away phase => exact .nobody unmapped away phase, hinv.buffered⟩

theorem CallPhase.Active.ne_registering {p : CallPhase} (h : p.Active) : p ≠ .registering := by
  rintro rfl
  exact h

theorem CallPhase.Active.ne_returned {p : CallPhase} (h : p.Active) : p ≠ .returned := by
  rintro rfl
  exact h

/-- While it is active, a call changes its phase without giving its channel away. -/
theorem CallInv.rephase {p : CallPhase} (h : CallInv es s k c) (hactive : c.phase.Active)
    (hp : p.Active) : CallInv es s k { c with phase := p } := by
  refine ⟨h.id, ?_, h.buffered⟩
  cases h.holder with
  | caller phase _ _ _ => exact absurd phase hactive.ne_registering
  | map mapped _ away unused =>
    exact .map mapped hp away ⟨unused.buf, unused.opened, unused.events⟩
  | sender r duty own arrived unmapped _ unused =>
    exact .sender r duty own arrived unmapped hp.ne_registering
      ⟨unused.buf, unused.opened, unused.events⟩
  | closer duty unmapped _ opened events =>
    exact .closer duty unmapped hp.ne_registering opened events
  | nobody unmapped away _ => exact .nobody unmapped away hp.ne_registering

theorem RpcInv.rephase {p : CallPhase} (h : RpcInv es s) (hk : s.calls k = some c)
    (hactive : c.phase.Active) (hp : p.Active) :
    RpcInv es (s.setCall k { c with phase := p }) := by
  constructor
  · have hinv : CallInv (es ++ []) s k { c with phase := p } := by
      rw [append_nil]
      exact (h.owners.call k c hk).rephase hactive hp
    have hset := h.owners.setCall hk (fun _ _ _ he => absurd he not_mem_nil) hinv
    rwa [append_nil] at hset
  · refine h.history.quiet rfl (settled_of_update rfl ?_)
    intro d hd hret
    cases hk.symm.trans hd
    exact absurd hret hactive.ne_returned

/-- A call that finds something in its channel, or finds it closed, is no
longer in the map, and the read loop has sent to it. -/
theorem CallInv.receive (h : CallInv es s k c) (hused : c.respCh.buf ≠ [] ∨ c.respCh.closed = true)
    (hid : c'.id = c.id) (hphase' : c'.phase = .returned)
    (hclosed : c'.respCh.closed = c.respCh.closed) (hbuf : ∀ r ∈ c'.respCh.buf, r ∈ c.respCh.buf) :
    CallInv es s k c' := by
  have hphase'' : c'.phase ≠ .registering := by
    rw [hphase']
    exact CallPhase.noConfusion
  -- So neither the map nor the read loop, before it sends, holds the channel.
  have hnot : ¬ Unused es k c := by
    intro unused
    obtain hused | hused := hused
    · exact hused unused.buf
    · rw [unused.opened] at hused
      cases hused
  refine ⟨hid.trans h.id, ?_, fun r hr => h.buffered r (hbuf r hr)⟩
  cases h.holder with
  | caller _ _ _ unused => exact absurd unused hnot
  | map _ _ _ unused => exact absurd unused hnot
  | sender _ _ _ _ _ _ unused => exact absurd unused hnot
  | closer duty unmapped _ opened events =>
    exact .closer duty unmapped hphase'' (hclosed.trans opened) events
  | nobody unmapped away _ => exact .nobody unmapped away hphase''

theorem uses_returned {result : RpcResult β} :
    ∀ j, j ≠ k → ∀ e ∈ [RpcEvent.returned k result], e.uses j = false := by
  intro j _ e he
  rw [mem_singleton.mp he]
  rfl

theorem RpcInv.return {result : RpcResult β} (h : RpcInv es s) (hk : s.calls k = some c)
    (hinv : CallInv es s k c') (hphase : c'.phase = .returned)
    (hreply : ∀ r, result = .response r → r.id = k + 1 ∧ r ∈ responsesOf es) :
    RpcInv (es ++ [.returned k result]) (s.setCall k c') := by
  constructor
  · exact h.owners.setCall hk uses_returned
      (hinv.frame rfl rfl fun e he => by rw [mem_singleton.mp he]; rfl)
  · exact h.history.return rfl rfl hphase hreply

theorem register_step (h : RpcInv es s) (hk : s.calls k = some c)
    (hphase : c.phase = .registering) :
    RpcInv es { s.setCall k { c with phase := .writing } with
      pending := s.pending.insert c.id k } := by
  have hinv := h.owners.call k c hk
  constructor
  · rw [← append_nil es]
    refine h.owners.update (elsewhere_setCall rfl ?_ (fun _ _ => rfl) ?_)
      (update_self ..) (fun _ _ => Iff.rfl) (h.owners.lt_nextID hk) ?_ ⟨hinv.id, ?_, ?_⟩
    · intro j hjk
      rw [hinv.id]
      exact lookup_insert_ne (by omega)
    · intro j _ e he
      cases he
    · intro id j hj
      obtain ⟨rfl, rfl⟩ | ⟨-, hj⟩ := GoMap.lookup_insert_cases hj
      · exact ⟨hinv.id, h.owners.lt_nextID hk⟩
      · exact h.owners.keys id j hj
    · -- The caller hands its channel to the map.
      rw [append_nil]
      cases hinv.holder with
      | caller _ _ away unused =>
        refine .map ?_ trivial away ⟨unused.buf, unused.opened, unused.events⟩
        show (s.pending.insert c.id k).lookup (k + 1) = some k
        rw [hinv.id]
        exact lookup_insert _
      | map _ phase _ _ => exact absurd hphase phase.ne_registering
      | sender _ _ _ _ _ phase _ => exact absurd hphase phase
      | closer _ _ phase _ _ => exact absurd hphase phase
      | nobody _ _ phase => exact absurd hphase phase
    · rw [append_nil]
      exact hinv.buffered
  · refine h.history.quiet rfl (settled_of_update rfl ?_)
    intro d hd hret
    cases hk.symm.trans hd
    rw [hphase] at hret
    cases hret

theorem receive_step (h : RpcInv es s) (hk : s.calls k = some c) (hphase : c.phase = .waiting)
    (move : Nat) :
    RpcInv (es ++ (s.callStep k c (.receive move)).2) (s.callStep k c (.receive move)).1 := by
  have hinv := h.owners.call k c hk
  simp only [Rpc.callStep, if_pos hphase]
  cases hrecv : c.respCh.recv with
  | got r ch =>
    obtain ⟨hbuf, hclosed⟩ := GoChan.recv_eq_got.mp hrecv
    have hmem : r ∈ c.respCh.buf := by
      rw [hbuf]
      exact mem_cons_self
    refine h.return hk (hinv.receive (.inl (ne_nil_of_mem hmem)) rfl rfl hclosed ?_) rfl ?_
    · intro x hx
      rw [hbuf]
      exact mem_cons_of_mem r hx
    · intro x heq
      cases heq
      exact hinv.buffered r hmem
  | closed =>
    obtain ⟨-, hclosed⟩ := GoChan.recv_eq_closed.mp hrecv
    refine h.return hk (hinv.receive (.inr hclosed) rfl rfl rfl fun _ hr => hr) rfl ?_
    intro x heq
    cases heq
  | empty =>
    simp only [append_nil]
    exact h

/-- A call that gives up takes itself out of the map, if it still is there. -/
theorem leave_step {why : RpcFailure} (h : RpcInv es s) (hk : s.calls k = some c)
    (hphase : c.phase = .leaving why) :
    RpcInv (es ++ [.returned k (.failed why)])
      ((s.setCall k { c with phase := .returned }).delete c.id) := by
  have hinv := h.owners.call k c hk
  have hunmapped : (s.pending.erase c.id).lookup (k + 1) = none := by
    rw [hinv.id]
    exact lookup_erase _ _
  have hnew : ∀ e ∈ [RpcEvent.returned k (.failed why : RpcResult β)], e.uses k = false := by
    intro e he
    rw [mem_singleton.mp he]
    rfl
  constructor
  · refine h.owners.update (elsewhere_setCall rfl ?_ (fun _ _ => rfl) uses_returned)
      (update_self ..) (fun _ _ => Iff.rfl) (h.owners.lt_nextID hk)
      (h.owners.keys_erase c.id) ⟨hinv.id, ?_, ?_⟩
    · intro j hjk
      show (s.pending.erase c.id).lookup (j + 1) = s.pending.lookup (j + 1)
      rw [hinv.id]
      exact lookup_erase_succ_of_ne hjk
    · cases hinv.holder with
      | caller phase _ _ _ =>
        rw [hphase] at phase
        cases phase
      -- Nobody has taken the channel out of the map, and nobody will.
      | map _ _ away _ => exact .nobody hunmapped away CallPhase.noConfusion
      -- The read loop has it, and sends to a call that has gone; the buffer
      -- has room for the one response.
      | sender r duty own arrived _ _ unused =>
        have unused' := unused.append hnew
        exact .sender r duty own (mem_responsesOf_append arrived _) hunmapped
          CallPhase.noConfusion ⟨unused'.buf, unused'.opened, unused'.events⟩
      | closer duty _ _ opened events =>
        exact .closer duty hunmapped CallPhase.noConfusion opened
          (closed_not_mem_append events hnew)
      | nobody _ away _ => exact .nobody hunmapped away CallPhase.noConfusion
    · exact hinv.buffered_append _
  · refine h.history.return rfl rfl rfl ?_
    intro r heq
    cases heq

/-- Every step of a call. -/
theorem callStep_inv (h : RpcInv es s) (hk : s.calls k = some c) (move : RpcMove β) :
    RpcInv (es ++ (s.callStep k c move).2) (s.callStep k c move).1 := by
  cases move with
  | register _ =>
    by_cases hguard : s.canceling = false ∧ c.phase = .registering
    · simp only [Rpc.callStep, if_pos hguard, append_nil]
      exact register_step h hk hguard.2
    · simp only [Rpc.callStep, if_neg hguard]
      exact h.stay
  | write _ ok =>
    by_cases hphase : c.phase = .writing
    · simp only [Rpc.callStep, if_pos hphase, append_nil]
      refine h.rephase hk (by rw [hphase]; trivial) ?_
      cases ok <;> trivial
    · simp only [Rpc.callStep, if_neg hphase]
      exact h.stay
  | receive move =>
    by_cases hphase : c.phase = .waiting
    · exact receive_step h hk hphase move
    · simp only [Rpc.callStep, if_neg hphase]
      exact h.stay
  | giveUp _ timeout =>
    by_cases hphase : c.phase = .waiting
    · simp only [Rpc.callStep, if_pos hphase, append_nil]
      exact h.rephase hk (by rw [hphase]; trivial) trivial
    · simp only [Rpc.callStep, if_neg hphase]
      exact h.stay
  | leave _ =>
    cases hphase : c.phase with
    | leaving why =>
      simp only [Rpc.callStep, hphase]
      split
      · exact h.stay
      · exact leave_step h hk hphase
    | registering | writing | waiting | returned => simpa only [Rpc.callStep, hphase] using h.stay
  | begin => exact h.stay
  | respond _ _ => exact h.stay
  | deliver => exact h.stay
  | closeDelivered => exact h.stay
  | cancelPending => exact h.stay
  | cancelNext _ => exact h.stay
  | cancelDone => exact h.stay

/-! ## The read loop and `cancelPending` -/

section

variable (h : RpcInv es s)

include h

/-- A call begins. -/
theorem begin_step :
    RpcInv es { s.setCall s.nextID ⟨s.nextID + 1, .registering, GoChan.empty⟩ with
      nextID := s.nextID + 1 } := by
  have hfresh := h.owners.fresh s.nextID le_rfl
  constructor
  · rw [← append_nil es]
    refine h.owners.update (elsewhere_setCall rfl (fun _ _ => rfl) (fun _ _ => rfl) ?_)
      (update_self ..) ?_ (Nat.lt_succ_self _) ?_ ⟨rfl, ?_, ?_⟩
    · intro j _ e he
      cases he
    · intro j hj
      show s.nextID + 1 ≤ j ↔ s.nextID ≤ j
      omega
    · intro id j hj
      obtain ⟨hid, hlt⟩ := h.owners.keys id j hj
      exact ⟨hid, Nat.lt_succ_of_lt hlt⟩
    · rw [append_nil]
      refine .caller rfl ?_ hfresh.1 ⟨rfl, rfl, hfresh.2⟩
      -- An entry under the new id would be one for the new call.
      cases hlookup : s.pending.lookup (s.nextID + 1) with
      | none => exact hlookup
      | some j =>
        have hkey := h.owners.keys _ j hlookup
        omega
    · intro r hr
      cases hr
  · refine h.history.quiet rfl (settled_of_update rfl ?_)
    intro d hd
    rw [(h.owners.born s.nextID).mpr le_rfl] at hd
    cases hd

/-- A response arrives; if its id is in the map, the read loop takes the
channel. -/
theorem respond_inv (id : Nat) (body : β) :
    RpcInv (es ++ (s.respond id body).2) (s.respond id body).1 := by
  unfold Rpc.respond
  split
  · rename_i hidle
    split
    · exact h.stay
    · have hnew : ∀ k, ∀ e ∈ [RpcEvent.arrived (⟨id, s.responses, body⟩ : RpcResponse β)],
          e.uses k = false := by
        intro k e he
        rw [mem_singleton.mp he]
        rfl
      constructor
      · cases hlookup : s.pending.lookup id with
        -- An id that is unknown, or was answered before: the response is dropped.
        | none =>
          refine h.owners.quiet rfl rfl ?_ ?_ hnew
          · intro id'
            show (s.pending.erase id).lookup id' = s.pending.lookup id'
            by_cases hid : id' = id
            · rw [hid, lookup_erase, hlookup]
            · exact lookup_erase_ne hid
          · intro k
            rw [hidle]
        | some k =>
          obtain ⟨rfl, hlt⟩ := h.owners.keys id k hlookup
          obtain ⟨c, hk⟩ := h.owners.exists_call hlt
          have hinv := h.owners.call k c hk
          refine h.owners.update ⟨fun _ _ => rfl, fun j hj => lookup_erase_succ_of_ne hj, ?_,
            fun j _ => hnew j⟩ hk (fun _ _ => Iff.rfl) hlt (h.owners.keys_erase _)
            ⟨hinv.id, ?_, ?_⟩
          · intro j hjk
            rw [hidle]
            exact duty_sending_of_ne hjk _
          · -- The map hands the channel to the read loop.
            obtain ⟨phase, -, unused⟩ := hinv.holder.of_mapped hlookup
            refine .sender _ (duty_sending k _) rfl ?_ (lookup_erase _ _)
              phase.ne_registering (unused.append (hnew k))
            rw [responsesOf_append]
            exact mem_append_right _ (mem_singleton.mpr rfl)
          · exact hinv.buffered_append _
      · exact h.history.respond rfl rfl rfl
  · exact h.stay

/-- The read loop holds the channel it is about to send on, so that the send
succeeds. -/
theorem deliver_eq {r : RpcResponse β} (hreader : s.reader = .sending k r) :
    ∃ c ch, s.calls k = some c ∧ ch.buf = [r] ∧ ch.closed = false ∧
      s.deliver = ({ s.setCall k { c with respCh := ch } with reader := .closing k },
        [.sent k r]) := by
  have hduty : s.reader.duty k = some (some r) := by
    rw [hreader]
    exact duty_sending k r
  obtain ⟨c, hk⟩ := h.owners.exists_call (h.owners.lt_of_duty hduty)
  obtain ⟨-, -, -, -, unused⟩ := (h.owners.call k c hk).holder.of_sending hduty
  obtain ⟨ch, hbuf, hopen⟩ : ∃ ch : GoChan (RpcResponse β) 1, ch.buf = [r] ∧ ch.closed = false :=
    ⟨⟨[r], false, le_rfl⟩, rfl, rfl⟩
  have hsend : c.respCh.send r = .sent ch := by
    rw [GoChan.send_eq_sent, unused.buf, hbuf]
    exact ⟨unused.opened, Nat.zero_lt_one, rfl, hopen⟩
  refine ⟨c, ch, hk, hbuf, hopen, ?_⟩
  simp only [Rpc.deliver, hreader, hk, hsend]

theorem deliver_inv : RpcInv (es ++ s.deliver.2) s.deliver.1 := by
  cases hreader : s.reader with
  | idle | closing k =>
    simp only [Rpc.deliver, hreader, append_nil]
    exact h
  | sending k r =>
    obtain ⟨c, ch, hk, hbuf, hopen, heq⟩ := deliver_eq h hreader
    rw [heq]
    have hinv := h.owners.call k c hk
    have hduty : s.reader.duty k = some (some r) := by
      rw [hreader]
      exact duty_sending k r
    obtain ⟨own, arrived, unmapped, phase, unused⟩ := hinv.holder.of_sending hduty
    have hnot : .closed k ∉ es ++ [RpcEvent.sent k r] := by
      intro hmem
      obtain hmem | hmem := mem_append.mp hmem
      · exact unused.closed_not_mem hmem
      · cases mem_singleton.mp hmem
    constructor
    · refine h.owners.update (elsewhere_setCall rfl (fun _ _ => rfl) ?_ ?_)
        (update_self ..) (fun _ _ => Iff.rfl) (h.owners.lt_nextID hk) h.owners.keys
        ⟨hinv.id, ?_, ?_⟩
      · intro j hjk
        rw [hreader]
        exact (duty_closing_of_ne hjk).trans (duty_sending_of_ne hjk r).symm
      · intro j hjk e he
        rw [mem_singleton.mp he]
        exact decide_eq_false (Ne.symm hjk)
      · exact .closer (duty_closing k) unmapped phase hopen hnot
      · intro x hx
        have hmem : x ∈ ch.buf := hx
        rw [hbuf] at hmem
        rw [mem_singleton.mp hmem]
        exact ⟨own, mem_responsesOf_append arrived _⟩
    · exact h.history.send rfl hk rfl rfl unused.events

/-- Whoever holds an open channel closes it, and then nobody holds it. -/
theorem closeChan_inv (hk : s.calls k = some c) (hopen : c.respCh.closed = false)
    (hfirst : .closed k ∉ es) (hphase : c.phase ≠ .registering) {done : Rpc β → Rpc β}
    (hdone : ∀ x, (done x).calls = x.calls ∧ (done x).nextID = x.nextID ∧
      (done x).responses = x.responses) (hpending : ∀ x : Rpc β, x.pending = s.pending →
      (∀ j, j ≠ k → (done x).pending.lookup (j + 1) = s.pending.lookup (j + 1)) ∧
      (done x).pending.lookup (k + 1) = none ∧
      ∀ id j, (done x).pending.lookup id = some j → id = j + 1 ∧ j < s.nextID)
    (hduty : ∀ x : Rpc β, x.reader = s.reader →
      (∀ j, j ≠ k → (done x).reader.duty j = s.reader.duty j) ∧ (done x).reader.duty k = none) :
    RpcInv (es ++ (s.closeChan k done).2) (s.closeChan k done).1 := by
  have hinv := h.owners.call k c hk
  have hclose : c.respCh.close = some { c.respCh with closed := true } := by
    rw [GoChan.close, hopen]
    rfl
  have heq : s.closeChan k done
      = (done (s.setCall k { c with respCh := { c.respCh with closed := true } }),
        [.closed k]) := by
    simp only [Rpc.closeChan, hk, hclose]
  rw [heq]
  -- What `done` does beyond this is known only through its hypotheses.
  generalize hx : s.setCall k { c with respCh := { c.respCh with closed := true } } = x
  have hcalls : (done x).calls
      = update s.calls k (some { c with respCh := { c.respCh with closed := true } }) := by
    rw [(hdone x).1, ← hx]
    rfl
  have hnext : (done x).nextID = s.nextID := by
    rw [(hdone x).2.1, ← hx]
    rfl
  obtain ⟨hother, hgone, hkeys⟩ := hpending x (by rw [← hx]; rfl)
  obtain ⟨haway, hidle⟩ := hduty x (by rw [← hx]; rfl)
  constructor
  · refine h.owners.update (elsewhere_setCall hcalls hother haway ?_)
      ((congrFun hcalls k).trans (update_self ..)) (fun _ _ => by rw [hnext])
      (by rw [hnext]; exact h.owners.lt_nextID hk) (by rw [hnext]; exact hkeys)
      ⟨hinv.id, .nobody hgone hidle hphase, ?_⟩
    · intro j hjk e he
      rw [mem_singleton.mp he]
      exact decide_eq_false (Ne.symm hjk)
    · exact hinv.buffered_append _
  · exact h.history.close (by rw [(hdone x).2.2, ← hx]; rfl) hk hcalls rfl hfirst

theorem closeDelivered_inv : RpcInv (es ++ s.closeDelivered.2) s.closeDelivered.1 := by
  unfold Rpc.closeDelivered
  split
  · rename_i k hreader
    have hduty : s.reader.duty k = some none := by
      rw [hreader]
      exact duty_closing k
    obtain ⟨c, hk⟩ := h.owners.exists_call (h.owners.lt_of_duty hduty)
    obtain ⟨unmapped, phase, opened, events⟩ := (h.owners.call k c hk).holder.of_closing hduty
    refine closeChan_inv h hk opened events phase (fun _ => ⟨rfl, rfl, rfl⟩) ?_ ?_
    · intro x hx
      show (∀ j, j ≠ k → x.pending.lookup (j + 1) = s.pending.lookup (j + 1)) ∧
        x.pending.lookup (k + 1) = none ∧
        ∀ id j, x.pending.lookup id = some j → id = j + 1 ∧ j < s.nextID
      rw [hx]
      exact ⟨fun _ _ => rfl, unmapped, h.owners.keys⟩
    · intro x _
      refine ⟨?_, rfl⟩
      intro j hjk
      rw [hreader]
      exact (duty_closing_of_ne hjk).symm
  · exact h.stay

theorem cancelNext_inv (id : Nat) : RpcInv (es ++ (s.cancelNext id).2) (s.cancelNext id).1 := by
  unfold Rpc.cancelNext
  split
  · split
    · rename_i k hlookup
      obtain ⟨rfl, hlt⟩ := h.owners.keys id k hlookup
      obtain ⟨c, hk⟩ := h.owners.exists_call hlt
      obtain ⟨phase, away, unused⟩ := (h.owners.call k c hk).holder.of_mapped hlookup
      refine closeChan_inv h hk unused.opened unused.closed_not_mem phase.ne_registering
        (fun _ => ⟨rfl, rfl, rfl⟩) ?_ ?_
      · intro x hx
        show (∀ j, j ≠ k → (x.pending.erase (k + 1)).lookup (j + 1) = s.pending.lookup (j + 1)) ∧
          (x.pending.erase (k + 1)).lookup (k + 1) = none ∧
          ∀ id j, (x.pending.erase (k + 1)).lookup id = some j → id = j + 1 ∧ j < s.nextID
        rw [hx]
        exact ⟨fun j hj => lookup_erase_succ_of_ne hj, lookup_erase _ _, h.owners.keys_erase _⟩
      · intro x hx
        show (∀ j, j ≠ k → x.reader.duty j = s.reader.duty j) ∧ x.reader.duty k = none
        rw [hx]
        exact ⟨fun _ _ => rfl, away⟩
    · exact h.stay
  · exact h.stay

end

/-! ## Every interleaving -/

theorem RpcInv.start : RpcInv [] (Rpc.start β) := by
  refine ⟨⟨?_, ?_, ?_, ?_⟩, ⟨rfl, .nil, ?_, ?_, ?_⟩⟩
  · intro k c hk
    cases hk
  · intro k
    exact ⟨fun _ => Nat.zero_le k, fun _ => rfl⟩
  · intro k _
    exact ⟨rfl, fun e he => absurd he not_mem_nil⟩
  · intro id k hk
    cases hk
  · intro e he
    cases he
  · intro k r hmem
    cases hmem
  · intro k result hmem
    cases hmem

theorem RpcInv.canceling (h : RpcInv es s) (b : Bool) :
    RpcInv (es ++ []) { s with canceling := b } := by
  constructor
  · exact h.owners.quiet rfl rfl (fun _ => rfl) (fun _ => rfl)
      (fun _ _ he => absurd he not_mem_nil)
  · rw [append_nil]
    exact h.history.quiet rfl (settled_of_calls rfl)

theorem onCall_inv (h : RpcInv es s) (k : Nat) (move : RpcMove β) :
    RpcInv (es ++ (s.onCall k move).2) (s.onCall k move).1 := by
  unfold Rpc.onCall
  split
  · rename_i c hk
    exact callStep_inv h hk move
  · rw [append_nil]
    exact h

theorem rpc_step_inv (h : RpcInv es s) (move : RpcMove β) :
    RpcInv (es ++ ((rpc β).step s move).2) ((rpc β).step s move).1 := by
  cases move with
  | begin =>
    show RpcInv (es ++ []) _
    rw [append_nil]
    exact begin_step h
  | register k => exact onCall_inv h k _
  | write k ok => exact onCall_inv h k _
  | receive k => exact onCall_inv h k _
  | giveUp k timeout => exact onCall_inv h k _
  | leave k => exact onCall_inv h k _
  | respond id body => exact respond_inv h id body
  | deliver => exact deliver_inv h
  | closeDelivered => exact closeDelivered_inv h
  | cancelPending => exact h.canceling true
  | cancelNext id => exact cancelNext_inv h id
  | cancelDone =>
    show RpcInv (es ++ (if GoMap.len s.pending = 0 then _ else (s, [])).2)
      (if GoMap.len s.pending = 0 then _ else (s, [])).1
    split
    · exact h.canceling false
    · rw [append_nil]
      exact h

theorem rpcInv_run (moves : List (RpcMove β)) :
    RpcInv ((rpc β).outputs (Rpc.start β) moves) ((rpc β).run (Rpc.start β) moves) :=
  (rpc β).run_history (P := fun _ out s => RpcInv out s) (Q := fun _ => True) .start
    (fun _ _ _ move _ h => rpc_step_inv h move) moves fun _ _ => trivial

/-- One number is one response. -/
theorem History.eq_of_number (h : History es s) {r r' : RpcResponse β}
    (hr : r ∈ responsesOf es) (hr' : r' ∈ responsesOf es) (heq : r.number = r'.number) :
    r = r' := by
  have hnodup : ((responsesOf es).map RpcResponse.number).Nodup := by
    rw [h.numbered]
    exact nodup_range
  exact inj_on_of_nodup_map hnodup hr hr' heq

/-- A call that has returned is not in the map. -/
theorem Owners.unmapped_of_returned (h : Owners es s) (hk : s.calls k = some c)
    (hret : c.phase = .returned) : c.id ∉ s.pending := by
  rw [(h.call k c hk).id]
  apply lookup_eq_none.mp
  cases hlookup : s.pending.lookup (k + 1) with
  | none => rfl
  | some j =>
    obtain ⟨phase, -, -⟩ := (h.call k c hk).holder.of_mapped hlookup
    exact absurd hret phase.ne_returned

/-- **Requests and responses.**  In every interleaving of calls, responses and
cancellations, no channel is closed twice, sent to twice or sent to after
it was closed; the read loop never waits to deliver a response; a call
returns only a response with its own id, and no two calls return the same
response; and the id of a call that has returned is not in the map. -/
theorem rpc_safe (moves : List (RpcMove β)) :
    let es := (rpc β).outputs (Rpc.start β) moves
    let s := (rpc β).run (Rpc.start β) moves
    (∀ k, .closeOfClosed k ∉ es ∧ .sendOnClosed k ∉ es ∧ .blocked k ∉ es) ∧
      es.Pairwise Orderly ∧
      (∀ k r, s.reader = .sending k r → ∃ s', (rpc β).step s .deliver = (s', [.sent k r])) ∧
      (∀ k r, .returned k (.response r) ∈ es → ∃ c, s.calls k = some c ∧ r.id = c.id) ∧
      (∀ k k' r r', .returned k (.response r) ∈ es → .returned k' (.response r') ∈ es →
        r.number = r'.number → k = k') ∧
      ∀ k result, .returned k result ∈ es → ∃ c, s.calls k = some c ∧ c.id ∉ s.pending := by
  intro es s
  have h : RpcInv es s := rpcInv_run moves
  refine ⟨?_, h.history.orderly, ?_, ?_, ?_, ?_⟩
  · intro k
    refine ⟨?_, ?_, ?_⟩ <;> intro hmem <;> cases h.history.faultless _ hmem
  · intro k r hreader
    obtain ⟨c, ch, -, -, -, heq⟩ := deliver_eq h hreader
    exact ⟨_, heq⟩
  · intro k r hmem
    obtain ⟨c, hk, -⟩ := h.history.returned k _ hmem
    exact ⟨c, hk, (h.history.replies k r hmem).1.trans (h.owners.call k c hk).id.symm⟩
  · intro k k' r r' hmem hmem' heq
    obtain ⟨hown, harrived⟩ := h.history.replies k r hmem
    obtain ⟨hown', harrived'⟩ := h.history.replies k' r' hmem'
    -- One response has one id, and an id belongs to one call.
    have hsame : r = r' := h.history.eq_of_number harrived harrived' heq
    rw [hsame, hown'] at hown
    omega
  · intro k result hmem
    obtain ⟨c, hk, hret⟩ := h.history.returned k result hmem
    exact ⟨c, hk, h.owners.unmapped_of_returned hk hret⟩

-- A call that is answered, and a second answer that nobody waits for.
example : (rpc Unit).outputs (Rpc.start Unit)
    [.begin, .register 0, .write 0 true, .respond 1 (), .deliver, .closeDelivered, .receive 0,
      .respond 1 ()]
    = [.arrived ⟨1, 0, ()⟩, .sent 0 ⟨1, 0, ()⟩, .closed 0, .returned 0 (.response ⟨1, 0, ()⟩),
      .arrived ⟨1, 1, ()⟩] := rfl

end Otedama.Poolproto
