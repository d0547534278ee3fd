import Otedama.Engine.SessionV2

/-! # Share accounting of a Stratum V2 session

A share leaves the session under a fresh sequence number and stays in
`submitTimes` until the pool answers it, or until the reaper gives up on
the answer. The pool chooses the answers freely: it may replay them,
reorder them, or invent sequence numbers and counts.

For the accounting only four kinds of steps exist (`LedgerStep`): nothing
happens, a share is dropped, a share is submitted, and a set of
outstanding submits is settled. `step_ledger` shows that every turn of
the session loop is one of them; the invariant is then proved for these
four kinds alone. -/

namespace Otedama.Engine

open Miner Stratum List GoMap

/-! ## What is observed -/

/-- Sequence numbers of the shares that went out, in order. -/
def submittedSeqs (out : List Effect) : List UInt32 :=
  out.filterMap fun
    | .submit sub => some sub.sequenceNumber
    | _ => none

/-- Sequence numbers of the submits that were settled, in order. -/
def settledSeqs (out : List Effect) : List UInt32 :=
  out.filterMap fun
    | .recordLatency seq _ _ => some seq
    | _ => none

@[simp] theorem submittedSeqs_append (out out' : List Effect) :
    submittedSeqs (out ++ out') = submittedSeqs out ++ submittedSeqs out' :=
  filterMap_append

@[simp] theorem settledSeqs_append (out out' : List Effect) :
    settledSeqs (out ++ out') = settledSeqs out ++ settledSeqs out' :=
  filterMap_append

/-- Shares taken from the workers during a run. -/
def sharesFound (es : List (Env × Event)) : Nat :=
  es.countP fun e => match e.2 with
    | .share _ => true
    | _ => false

@[simp] theorem sharesFound_append (es fs : List (Env × Event)) :
    sharesFound (es ++ fs) = sharesFound es + sharesFound fs :=
  countP_append

/-- Verdicts counted so far. -/
def ShareMetrics.judged (m : ShareMetrics) : Nat :=
  m.sharesAccepted + m.sharesRejected + m.rejectReason .difficultyTransition

/-- No verdict counter goes back. -/
structure ShareMetrics.Grows (m m' : ShareMetrics) : Prop where
  accepted : m.sharesAccepted ≤ m'.sharesAccepted
  rejected : m.sharesRejected ≤ m'.sharesRejected
  transition : m.rejectReason .difficultyTransition ≤ m'.rejectReason .difficultyTransition

theorem ShareMetrics.Grows.refl (m : ShareMetrics) : m.Grows m :=
  ⟨le_rfl, le_rfl, le_rfl⟩

theorem ShareMetrics.Grows.trans {a b c : ShareMetrics} (h : a.Grows b) (h' : b.Grows c) :
    a.Grows c :=
  ⟨h.accepted.trans h'.accepted, h.rejected.trans h'.rejected, h.transition.trans h'.transition⟩

/-! ## The two loops over the outstanding submits -/

/-- The settling loop deletes the keys up to `last` from both maps, counts
them and records one latency for each. -/
theorem foldl_settleOne (last : UInt32) (now : Nat) (l : List ((_ : UInt32) × Nat))
    (a : Settling) :
    let ks := (l.map Sigma.fst).filter (· ≤ last)
    let b := l.foldl (settleOne last now) a
    b.times = deleteAll ks a.times ∧ b.targets = deleteAll ks a.targets ∧
      b.settled = a.settled + ks.length ∧ settledSeqs b.out = settledSeqs a.out ++ ks ∧
      submittedSeqs b.out = submittedSeqs a.out := by
  induction l generalizing a with
  | nil => simp
  | cons e l ih =>
    by_cases he : e.1 ≤ last
    · have hstep : settleOne last now a e =
          { times := a.times.erase e.1, targets := a.targets.erase e.1,
            settled := a.settled + 1,
            out := a.out ++ [.recordLatency e.1 e.2 now] } := by
        simp [settleOne, he]
      have hkeys : (((e :: l).map Sigma.fst).filter (· ≤ last)) =
          e.1 :: ((l.map Sigma.fst).filter (· ≤ last)) := by
        simp [he]
      obtain ⟨h1, h2, h3, h4, h5⟩ := ih (settleOne last now a e)
      simp only [foldl_cons, hkeys]
      rw [hstep] at h1 h2 h3 h4 h5 ⊢
      refine ⟨h1, h2, ?_, ?_, ?_⟩
      · rw [h3, length_cons]
        dsimp only
        omega
      · rw [h4]; simp [settledSeqs]
      · rw [h5]; simp [submittedSeqs]
    · have hstep : settleOne last now a e = a := by simp [settleOne, he]
      have hkeys : (((e :: l).map Sigma.fst).filter (· ≤ last)) =
          ((l.map Sigma.fst).filter (· ≤ last)) := by
        simp [he]
      simp only [foldl_cons, hkeys, hstep]
      exact ih a

/-- The reaping loop deletes the keys below `cutoff` from both maps. -/
theorem foldl_reapOne (cutoff : UInt32) (ks : List UInt32)
    (a : GoMap UInt32 Nat × GoMap UInt32 Hash) : ks.foldl (reapOne cutoff) a =
      (deleteAll (ks.filter (· < cutoff)) a.1, deleteAll (ks.filter (· < cutoff)) a.2) := by
  induction ks generalizing a with
  | nil => rfl
  | cons k ks ih =>
    rw [foldl_cons, ih]
    by_cases hk : k < cutoff
    · simp [reapOne, hk]
    · simp [reapOne, hk]

/-- Crediting never exceeds what was settled. -/
theorem creditedSubmits_le (claimed : UInt32) (settled : Nat) :
    creditedSubmits claimed settled ≤ settled := by
  unfold creditedSubmits
  split
  · exact le_rfl
  · next h => omega

/-! ## The four kinds of steps -/

/-- What a turn of the loop that takes `shares` shares from the workers can
do to the accounting. -/
inductive LedgerStep (s s' : SessionV2) (out : List Effect) (shares : Nat) : Prop where
  /-- Nothing. -/
  | idle (hseq : s'.seqNum = s.seqNum) (htimes : s'.submitTimes = s.submitTimes)
      (htargets : s'.submitTargets = s.submitTargets) (hm : s'.m = s.m)
      (hsub : submittedSeqs out = []) (hset : settledSeqs out = [])
  /-- A share is found and not submitted. -/
  | drop (hshares : shares = 1) (hseq : s'.seqNum = s.seqNum + 1)
      (htimes : s'.submitTimes = s.submitTimes) (htargets : s'.submitTargets = s.submitTargets)
      (hgrows : s.m.Grows s'.m) (hjudged : s'.m.judged = s.m.judged)
      (hsub : submittedSeqs out = []) (hset : settledSeqs out = [])
  /-- A share is found and submitted. -/
  | submit (hshares : shares = 1) (hseq : s'.seqNum = s.seqNum + 1) (now : Nat) (target : Hash)
      (hmaps : (s'.submitTimes, s'.submitTargets) =
        reap (s.seqNum + 1) (s.submitTimes.insert (s.seqNum + 1) now)
          (s.submitTargets.insert (s.seqNum + 1) target))
      (hgrows : s.m.Grows s'.m) (hjudged : s'.m.judged = s.m.judged)
      (hsub : submittedSeqs out = [s.seqNum + 1]) (hset : settledSeqs out = [])
  /-- The submits `ks` are settled. -/
  | settle (ks : List UInt32) (hnd : ks.Nodup) (hks : ∀ k ∈ ks, k ∈ s.submitTimes)
      (hseq : s'.seqNum = s.seqNum)
      (htimes : s'.submitTimes = GoMap.deleteAll ks s.submitTimes)
      (htargets : s'.submitTargets = GoMap.deleteAll ks s.submitTargets)
      (hgrows : s.m.Grows s'.m) (hjudged : s'.m.judged ≤ s.m.judged + ks.length)
      (hsub : submittedSeqs out = []) (hset : settledSeqs out = ks)

/-- A step that changes neither the sequence number, the maps nor the
counters, and reports neither a submit nor a settlement, is idle. -/
theorem LedgerStep.of_eq {s s' : SessionV2} {out : List Effect} {shares : Nat}
    (h : (s'.seqNum, s'.submitTimes, s'.submitTargets, s'.m) =
      (s.seqNum, s.submitTimes, s.submitTargets, s.m))
    (hout : (submittedSeqs out, settledSeqs out) = ([], [])) : LedgerStep s s' out shares := by
  simp only [Prod.mk.injEq] at h hout
  exact .idle h.1 h.2.1 h.2.2.1 h.2.2.2 hout.1 hout.2

/-- Issuing work is neither a submit nor a settlement. -/
theorem startJob_silent (env : Env) (s : SessionV2) (j : NewMiningJob) (ntime : UInt32) :
    (submittedSeqs (startJob env s j ntime).2, settledSeqs (startJob env s j ntime).2) =
      ([], []) := by
  unfold startJob
  split <;> rfl

theorem onSubmitSharesSuccess_ledger (n : Nat) (env : Env) (s : SessionV2)
    (r : SubmitSharesSuccess) :
    LedgerStep s (onSubmitSharesSuccess env s r).1 (onSubmitSharesSuccess env s r).2 n := by
  unfold onSubmitSharesSuccess
  split
  · exact .of_eq rfl rfl
  · -- The settled submits are the outstanding ones up to the acknowledged number.
    obtain ⟨h1, h2, h3, h4, h5⟩ := foldl_settleOne r.lastSequenceNumber env.now
      s.submitTimes.entries
      { times := s.submitTimes, targets := s.submitTargets, settled := 0, out := [] }
    refine .settle (s.submitTimes.keys.filter (· ≤ r.lastSequenceNumber)) ?_ ?_ rfl h1 h2 ?_ ?_
      h5 h4
    · exact s.submitTimes.keys_nodup.filter _
    · intro k hk
      exact AList.mem_keys.mpr (mem_of_mem_filter hk)
    · exact ⟨Nat.le_add_right _ _, le_rfl, le_rfl⟩
    · -- Whatever the pool claims, the credit is at most what was settled here.
      have hcred := creditedSubmits_le r.newSubmitsAccepted
        (settleUpTo r.lastSequenceNumber env.now s.submitTimes s.submitTargets).settled
      have hlen : (settleUpTo r.lastSequenceNumber env.now s.submitTimes
          s.submitTargets).settled =
          (s.submitTimes.keys.filter (· ≤ r.lastSequenceNumber)).length := by
        have h3' := h3
        rw [Nat.zero_add] at h3'
        exact h3'
      rw [hlen] at hcred
      simp only [ShareMetrics.judged, hlen]
      omega

/-- `rejectClass` never yields the reason reserved for retarget artifacts. -/
theorem rejectClass_ne_transition (reason : List Char) :
    rejectClass reason ≠ .difficultyTransition := by
  unfold rejectClass
  dsimp only
  repeat' split
  all_goals exact nofun

/-- A reject adds exactly one verdict, whichever counter it goes to. -/
theorem countReject_judged (m : ShareMetrics) (transition : Bool) {category : RejectReason}
    (hcat : category ≠ .difficultyTransition) : m.Grows (m.countReject transition category) ∧
      (m.countReject transition category).judged = m.judged + 1 := by
  cases transition with
  | true =>
    have htr : (m.countReject true category).rejectReason .difficultyTransition =
        m.rejectReason .difficultyTransition + 1 := by
      simp [ShareMetrics.countReject, ShareMetrics.countReason]
    refine ⟨⟨le_rfl, le_rfl, by omega⟩, ?_⟩
    simp only [ShareMetrics.judged, htr]
    simp only [ShareMetrics.countReject, ShareMetrics.countReason, if_true]
    omega
  | false =>
    have htr : (m.countReject false category).rejectReason .difficultyTransition =
        m.rejectReason .difficultyTransition := Function.update_of_ne (Ne.symm hcat) ..
    refine ⟨⟨le_rfl, Nat.le_succ _, by omega⟩, ?_⟩
    simp only [ShareMetrics.judged, htr]
    simp only [ShareMetrics.countReject, ShareMetrics.countReason, Bool.false_eq_true, if_false]
    omega

theorem onSubmitSharesError_ledger (n : Nat) (env : Env) (s : SessionV2) (e : SubmitSharesError) :
    LedgerStep s (onSubmitSharesError env s e).1 (onSubmitSharesError env s e).2 n := by
  unfold onSubmitSharesError
  split
  · exact .of_eq rfl rfl
  · cases hlook : s.submitTimes.lookup e.sequenceNumber with
    | none => exact .of_eq rfl rfl
    | some sent =>
      have hmem : e.sequenceNumber ∈ s.submitTimes := mem_of_lookup hlook
      have hcount := fun transition => countReject_judged s.m transition
        (rejectClass_ne_transition (Poolproto.sanitizePoolText e.error))
      refine .settle [e.sequenceNumber] (nodup_singleton _) ?_ rfl rfl rfl
        (hcount _).1 (Nat.le_of_eq (hcount _).2) rfl rfl
      intro k hk
      obtain rfl := mem_singleton.mp hk
      exact hmem

theorem onShare_ledger (opts : SessionOpts) (env : Env) (s : SessionV2) (sh : Share) :
    LedgerStep s (onShare opts env s sh).1 (onShare opts env s sh).2 1 := by
  unfold onShare
  dsimp only
  split
  · -- Superseded, or the rate limiter has no token.
    exact .drop rfl rfl rfl rfl ⟨le_rfl, le_rfl, le_rfl⟩ rfl rfl rfl
  · split
    · -- The send failed: the session ends, but the number is used up.
      exact .drop rfl rfl rfl rfl ⟨le_rfl, le_rfl, le_rfl⟩ rfl rfl rfl
    · exact .submit rfl rfl env.now sh.target rfl
        ⟨le_rfl, le_rfl, le_rfl⟩ rfl rfl rfl

theorem handleMsg_ledger (n : Nat) (env : Env) (s : SessionV2) (msg : Message) :
    LedgerStep s (handleMsg env s msg).1 (handleMsg env s msg).2 n := by
  cases msg with
  | newMiningJob j =>
    simp only [handleMsg, onNewMiningJob]
    split
    · exact .of_eq rfl (startJob_silent ..)
    · exact .of_eq rfl rfl
  | setNewPrevHash p =>
    simp only [handleMsg, onSetNewPrevHash]
    split
    · exact .of_eq rfl (startJob_silent ..)
    · exact .of_eq rfl rfl
  | setTarget t =>
    simp only [handleMsg, onSetTarget]
    split
    · split
      · exact .of_eq rfl (startJob_silent ..)
      · exact .of_eq rfl rfl
    · exact .of_eq rfl rfl
  | submitSharesSuccess r => exact onSubmitSharesSuccess_ledger n env s r
  | submitSharesError e => exact onSubmitSharesError_ledger n env s e
  | closeChannel cc => exact .of_eq rfl rfl
  | _ =>
    apply LedgerStep.of_eq
    · simp only [handleMsg, misplacedMsgType]
      split <;> rfl
    · rfl

/-- **Inversion.** Every turn of the session loop is a ledger step. -/
theorem step_ledger (opts : SessionOpts) (s : SessionV2) (input : Env × Event) :
    LedgerStep s (SessionV2.step opts s input).1 (SessionV2.step opts s input).2
      (sharesFound [input]) := by
  unfold SessionV2.step
  split
  · exact .of_eq rfl rfl
  · split
    · exact .of_eq rfl rfl
    · apply LedgerStep.of_eq
      · unfold onStatsTick
        split <;> rfl
      · rfl
    · exact .of_eq rfl rfl
    · exact .of_eq rfl rfl
    · next msg _ =>
      unfold onPoolMsg
      split
      · exact .of_eq rfl rfl
      · exact handleMsg_ledger _ input.1 s msg
    · exact .of_eq rfl rfl
    · next sh hev =>
      have hn : sharesFound [input] = 1 := by
        simp [sharesFound, hev]
      rw [hn]
      exact onShare_ledger opts input.1 s sh

/-! ## The invariant -/

/-- What holds of a session that started with the counters `m₀`, took
`shares` shares from the workers and made the calls `out`. -/
structure LedgerInv (m₀ : ShareMetrics) (shares : Nat) (out : List Effect) (s : SessionV2) :
    Prop where
  seq_le : s.seqNum.toNat ≤ shares
  submitted_nodup : (submittedSeqs out).Nodup
  submitted_range : ∀ q ∈ submittedSeqs out, 0 < q.toNat ∧ q.toNat ≤ s.seqNum.toNat
  keys_submitted : ∀ q ∈ s.submitTimes, q ∈ submittedSeqs out
  same_keys : ∀ q, q ∈ s.submitTimes ↔ q ∈ s.submitTargets
  bounded : s.submitTimes.len ≤ submitTimesCap.toNat
  settled_nodup : (settledSeqs out).Nodup
  settled_submitted : ∀ q ∈ settledSeqs out, q ∈ submittedSeqs out
  settled_gone : ∀ q ∈ settledSeqs out, q ∉ s.submitTimes
  grows : m₀.Grows s.m
  judged_le : s.m.judged ≤ m₀.judged + (settledSeqs out).length

section

variable {m₀ : ShareMetrics} {n : Nat} {out out' : List Effect} {s s' : SessionV2}

section

variable (hinv : LedgerInv m₀ n out s) (hn : n + 1 < 2 ^ 32)

include hinv hn

/-- Without wrap-around, the next sequence number is one more. -/
theorem LedgerInv.toNat_succ : (s.seqNum + 1).toNat = s.seqNum.toNat + 1 := by
  have hle := hinv.seq_le
  rw [UInt32.toNat_add]
  exact Nat.mod_eq_of_lt (by simp; omega)

/-- The next sequence number has not been submitted yet. -/
theorem LedgerInv.succ_fresh : s.seqNum + 1 ∉ submittedSeqs out := by
  intro hmem
  have hle := (hinv.submitted_range _ hmem).2
  rw [hinv.toNat_succ hn] at hle
  omega

/-- The keys of the map that the reaper sees lie between one and the new
sequence number. -/
theorem LedgerInv.insert_range (now : Nat) :
    ∀ q ∈ s.submitTimes.insert (s.seqNum + 1) now, 1 ≤ q.toNat ∧ q.toNat < s.seqNum.toNat + 2 := by
  intro q hq
  rcases (AList.mem_insert _).mp hq with rfl | hq
  · rw [hinv.toNat_succ hn]; omega
  · have hrange := hinv.submitted_range q (hinv.keys_submitted q hq)
    omega

/-- When the reaper runs, more than half a cap of sequence numbers has been
used, so its subtraction does not wrap. -/
theorem LedgerInv.cutoff_le {now : Nat}
    (hcap : submitTimesCap.toNat < len (s.submitTimes.insert (s.seqNum + 1) now)) :
    submitTimesCap / 2 ≤ s.seqNum + 1 := by
  have hwin := len_le_of_window (fun _ _ h => UInt32.toNat_inj.mp h) (hinv.insert_range hn now)
  have hcap' : submitTimesCap.toNat = 1024 := rfl
  have hhalf : (submitTimesCap / 2).toNat = 512 := rfl
  rw [UInt32.le_iff_toNat_le, hhalf, hinv.toNat_succ hn]
  omega

/-- What the reaper leaves after a submit: keys of the enlarged maps, the
same ones in both, and no more than the cap. -/
theorem LedgerInv.reap_spec (now : Nat) (target : Hash) :
    let times := s.submitTimes.insert (s.seqNum + 1) now
    let targets := s.submitTargets.insert (s.seqNum + 1) target
    let maps := reap (s.seqNum + 1) times targets
    (∀ q ∈ maps.1, q ∈ times) ∧ (∀ q, q ∈ maps.1 ↔ q ∈ maps.2) ∧
      maps.1.len ≤ submitTimesCap.toNat := by
  intro times targets maps
  have hsame : ∀ q, q ∈ times ↔ q ∈ targets := by
    intro q
    rw [AList.mem_insert, AList.mem_insert, hinv.same_keys]
  by_cases hcap : submitTimesCap.toNat < len times
  · have hmaps : maps = times.keys.foldl (reapOne (s.seqNum + 1 - submitTimesCap / 2))
        (times, targets) := if_pos hcap
    rw [foldl_reapOne] at hmaps
    have hcut := hinv.cutoff_le hn hcap
    have hcutNat : (s.seqNum + 1 - submitTimesCap / 2).toNat = s.seqNum.toNat + 1 - 512 := by
      rw [UInt32.toNat_sub_of_le _ _ hcut, hinv.toNat_succ hn]
      rfl
    rw [hmaps]
    refine ⟨?_, ?_, ?_⟩
    · intro q hq
      exact (mem_deleteAll.mp hq).1
    · intro q
      rw [mem_deleteAll, mem_deleteAll, hsame]
    · -- The keys that are left lie in a window of half a cap.
      have hwin : ∀ q ∈ deleteAll
          (times.keys.filter (· < s.seqNum + 1 - submitTimesCap / 2)) times,
          s.seqNum.toNat + 1 - 512 ≤ q.toNat ∧ q.toNat < s.seqNum.toNat + 2 := by
        intro q hq
        obtain ⟨hq, hkept⟩ := mem_deleteAll.mp hq
        have hge : ¬ q < s.seqNum + 1 - submitTimesCap / 2 := by
          intro hlt
          exact hkept (mem_filter.mpr ⟨AList.mem_keys.mp hq, by simpa using hlt⟩)
        rw [UInt32.lt_iff_toNat_lt, hcutNat] at hge
        have hrange := hinv.insert_range hn now q hq
        omega
      have hlen := len_le_of_window (fun _ _ h => UInt32.toNat_inj.mp h) hwin
      have hcap' : submitTimesCap.toNat = 1024 := rfl
      show len (deleteAll _ times) ≤ _
      omega
  · have hmaps : maps = (times, targets) := if_neg hcap
    rw [hmaps]
    exact ⟨fun q hq => hq, hsame, Nat.le_of_not_lt hcap⟩

end

/-- The session state after the handshake satisfies the invariant. -/
theorem LedgerInv.start (target : Hash) (m : ShareMetrics) :
    LedgerInv m 0 [] (SessionV2.start target m) where
  seq_le := le_rfl
  submitted_nodup := nodup_nil
  submitted_range := nofun
  keys_submitted := nofun
  same_keys _ := Iff.rfl
  bounded := Nat.zero_le _
  settled_nodup := nodup_nil
  settled_submitted := nofun
  settled_gone := nofun
  grows := .refl _
  judged_le := le_rfl

/-- A step that leaves the maps alone, counts no verdict and reports nothing
keeps the invariant. -/
theorem LedgerInv.quiet (hinv : LedgerInv m₀ n out s) {k : Nat}
    (hseq : s.seqNum.toNat ≤ s'.seqNum.toNat) (hle : s'.seqNum.toNat ≤ n + k)
    (htimes : s'.submitTimes = s.submitTimes) (htargets : s'.submitTargets = s.submitTargets)
    (hgrows : s.m.Grows s'.m) (hjudged : s'.m.judged = s.m.judged)
    (hsub : submittedSeqs out' = []) (hset : settledSeqs out' = []) :
    LedgerInv m₀ (n + k) (out ++ out') s' := by
  refine ⟨hle, ?_, ?_, ?_, ?_, ?_, ?_, ?_, ?_, hinv.grows.trans hgrows, ?_⟩ <;>
    simp only [submittedSeqs_append, settledSeqs_append, hsub, hset, append_nil, htimes,
      htargets, hjudged]
  · exact hinv.submitted_nodup
  · intro q hq
    have hrange := hinv.submitted_range q hq
    omega
  · exact hinv.keys_submitted
  · exact hinv.same_keys
  · exact hinv.bounded
  · exact hinv.settled_nodup
  · exact hinv.settled_submitted
  · exact hinv.settled_gone
  · exact hinv.judged_le

/-- A submit keeps the invariant. -/
theorem LedgerInv.submit (hinv : LedgerInv m₀ n out s) (hn : n + 1 < 2 ^ 32)
    (hseq : s'.seqNum = s.seqNum + 1) {now : Nat} {target : Hash}
    (hmaps : (s'.submitTimes, s'.submitTargets) =
      reap (s.seqNum + 1) (s.submitTimes.insert (s.seqNum + 1) now)
        (s.submitTargets.insert (s.seqNum + 1) target))
    (hgrows : s.m.Grows s'.m) (hjudged : s'.m.judged = s.m.judged)
    (hsub : submittedSeqs out' = [s.seqNum + 1]) (hset : settledSeqs out' = []) :
    LedgerInv m₀ (n + 1) (out ++ out') s' := by
  have hle := hinv.seq_le
  have hsucc := hinv.toNat_succ hn
  obtain ⟨hsubset, hsame, hlen⟩ := hinv.reap_spec hn now target
  rw [← hmaps] at hsubset hsame hlen
  -- The only new number is `seqNum + 1`, which lies above all earlier ones.
  refine ⟨?_, ?_, ?_, ?_, hsame, hlen, ?_, ?_, ?_, hinv.grows.trans hgrows, ?_⟩ <;>
    simp only [submittedSeqs_append, settledSeqs_append, hsub, hset, append_nil, hseq]
  · omega
  · refine nodup_append.mpr ⟨hinv.submitted_nodup, nodup_singleton _, ?_⟩
    rintro q hq _ hq' rfl
    rw [mem_singleton.mp hq'] at hq
    exact hinv.succ_fresh hn hq
  · intro q hq
    rcases mem_append.mp hq with hq | hq
    · have hrange := hinv.submitted_range q hq
      omega
    · rw [mem_singleton.mp hq]
      omega
  · intro q hq
    rcases (AList.mem_insert _).mp (hsubset q hq) with rfl | hq
    · simp
    · exact mem_append_left _ (hinv.keys_submitted q hq)
  · exact hinv.settled_nodup
  · intro q hq
    exact mem_append_left _ (hinv.settled_submitted q hq)
  · -- A settled number is an old one, and old ones are not re-inserted.
    intro q hq hmem
    rcases (AList.mem_insert _).mp (hsubset q hmem) with rfl | hmem
    · exact hinv.succ_fresh hn (hinv.settled_submitted _ hq)
    · exact hinv.settled_gone q hq hmem
  · rw [hjudged]
    exact hinv.judged_le

/-- Settling submits that are outstanding keeps the invariant. -/
theorem LedgerInv.settle (hinv : LedgerInv m₀ n out s) {k : Nat} {ks : List UInt32}
    (hnd : ks.Nodup) (hks : ∀ k ∈ ks, k ∈ s.submitTimes) (hseq : s'.seqNum = s.seqNum)
    (htimes : s'.submitTimes = deleteAll ks s.submitTimes)
    (htargets : s'.submitTargets = deleteAll ks s.submitTargets)
    (hgrows : s.m.Grows s'.m) (hjudged : s'.m.judged ≤ s.m.judged + ks.length)
    (hsub : submittedSeqs out' = []) (hset : settledSeqs out' = ks) :
    LedgerInv m₀ (n + k) (out ++ out') s' := by
  refine ⟨?_, ?_, ?_, ?_, ?_, ?_, ?_, ?_, ?_, hinv.grows.trans hgrows, ?_⟩ <;>
    simp only [submittedSeqs_append, settledSeqs_append, hsub, hset, append_nil, hseq,
      htimes, htargets, mem_deleteAll, length_append]
  · have hle := hinv.seq_le
    omega
  · exact hinv.submitted_nodup
  · exact hinv.submitted_range
  · intro q hq
    exact hinv.keys_submitted q hq.1
  · intro q
    rw [hinv.same_keys]
  · exact (len_deleteAll_le ks s.submitTimes).trans hinv.bounded
  · -- What is settled now was outstanding, so it was not settled before.
    refine nodup_append.mpr ⟨hinv.settled_nodup, hnd, ?_⟩
    rintro q hq _ hq' rfl
    exact hinv.settled_gone q hq (hks q hq')
  · intro q hq
    rcases mem_append.mp hq with hq | hq
    · exact hinv.settled_submitted q hq
    · exact hinv.keys_submitted q (hks q hq)
  · rintro q hq ⟨hmem, hnot⟩
    rcases mem_append.mp hq with hq | hq
    · exact hinv.settled_gone q hq hmem
    · exact hnot hq
  · have hle := hinv.judged_le
    omega

/-- Every step keeps the invariant, as long as the sequence number does not
wrap. -/
theorem LedgerInv.step {k : Nat} (hstep : LedgerStep s s' out' k) (hn : n + k < 2 ^ 32)
    (hinv : LedgerInv m₀ n out s) : LedgerInv m₀ (n + k) (out ++ out') s' := by
  cases hstep with
  | idle hseq htimes htargets hm hsub hset =>
    have hle := hinv.seq_le
    refine hinv.quiet ?_ ?_ htimes htargets ?_ ?_ hsub hset
    · rw [hseq]
    · rw [hseq]; omega
    · rw [hm]; exact .refl _
    · rw [hm]
  | drop hk hseq htimes htargets hgrows hjudged hsub hset =>
    subst hk
    have hle := hinv.seq_le
    have hsucc := hinv.toNat_succ hn
    rw [← hseq] at hsucc
    exact hinv.quiet (by omega) (by omega) htimes htargets hgrows hjudged hsub hset
  | submit hk hseq now target hmaps hgrows hjudged hsub hset =>
    subst hk
    exact hinv.submit hn hseq hmaps hgrows hjudged hsub hset
  | settle ks hnd hks hseq htimes htargets hgrows hjudged hsub hset =>
    exact hinv.settle hnd hks hseq htimes htargets hgrows hjudged hsub hset

end

/-- The invariant holds along every run. -/
theorem run_ledgerInv (opts : SessionOpts) (target : Hash) (m₀ : ShareMetrics)
    (es : List (Env × Event)) (hfew : sharesFound es < 2 ^ 32) : LedgerInv m₀ (sharesFound es)
      ((runSession opts).outputs (SessionV2.start target m₀) es)
      ((runSession opts).run (SessionV2.start target m₀) es) := by
  -- The bound on the shares goes into the predicate: it has to hold of every
  -- prefix of the run.
  refine (runSession opts).run_history
    (P := fun hist out s => sharesFound hist < 2 ^ 32 → LedgerInv m₀ (sharesFound hist) out s)
    (Q := fun _ => True) (fun _ => LedgerInv.start target m₀) ?_ es (fun _ _ => trivial) hfew
  intro hist out s e _ ih hlt
  rw [sharesFound_append] at hlt ⊢
  exact LedgerInv.step (step_ledger opts s e) hlt (ih (by omega))

/-! ## The accounting theorem -/

/-- The books of a session that started with the counters `m₀` and made the
calls `out`: what was submitted, what was settled, and what is open. -/
structure ShareAccounting (m₀ : ShareMetrics) (shares : Nat) (out : List Effect)
    (s : SessionV2) : Prop where
  /-- Sequence numbers are never reused. -/
  submitted_once : (submittedSeqs out).Nodup
  /-- Nothing is settled twice, and only what was submitted is settled. -/
  settled_once : (settledSeqs out).Nodup
  settled_submitted : ∀ q ∈ settledSeqs out, q ∈ submittedSeqs out
  /-- Verdicts and open submits together never exceed the submitted shares. -/
  conserved :
    (s.m.sharesAccepted - m₀.sharesAccepted) + (s.m.sharesRejected - m₀.sharesRejected) +
      (s.m.rejectReason .difficultyTransition - m₀.rejectReason .difficultyTransition) +
      s.submitTimes.len ≤ (submittedSeqs out).length
  /-- No counter falls below where the session found it. -/
  grows : m₀.Grows s.m
  same_keys : ∀ q, q ∈ s.submitTimes ↔ q ∈ s.submitTargets
  bounded : s.submitTimes.len ≤ 1024
  keys_submitted : ∀ q ∈ s.submitTimes, q ∈ submittedSeqs out ∧ q ≤ s.seqNum
  /-- Whenever the next submit makes the reaper run, its subtraction does not
      wrap. -/
  cutoff_le : shares + 1 < 2 ^ 32 → ∀ now,
    submitTimesCap.toNat < GoMap.len (s.submitTimes.insert (s.seqNum + 1) now) →
    512 ≤ (s.seqNum + 1).toNat

/-- **Share accounting.**  Whatever the pool answers, in every state a session
reaches before its 2^32-th share the books balance. -/
theorem runSession_shareAccounting (opts : SessionOpts) (target : Hash) (m₀ : ShareMetrics)
    (es : List (Env × Event)) (hfew : sharesFound es < 2 ^ 32) :
    ShareAccounting m₀ (sharesFound es)
      ((runSession opts).outputs (SessionV2.start target m₀) es)
      ((runSession opts).run (SessionV2.start target m₀) es) := by
  have hinv := run_ledgerInv opts target m₀ es hfew
  have hopen := GoMap.len_add_length_le hinv.settled_nodup hinv.settled_gone
    hinv.keys_submitted hinv.settled_submitted
  have hgrows := hinv.grows
  refine ⟨hinv.submitted_nodup, hinv.settled_nodup, hinv.settled_submitted, ?_, hgrows,
    hinv.same_keys, hinv.bounded, ?_, ?_⟩
  · -- Each verdict took one settled submit, and settled and open ones are
    -- disjoint parts of the submitted ones.
    have hjudged := hinv.judged_le
    simp only [ShareMetrics.judged] at hjudged
    have h1 := hgrows.accepted
    have h2 := hgrows.rejected
    have h3 := hgrows.transition
    omega
  · intro q hq
    have hsub := hinv.keys_submitted q hq
    exact ⟨hsub, UInt32.le_iff_toNat_le.mpr (hinv.submitted_range q hsub).2⟩
  · intro hlt now hcap
    exact UInt32.le_iff_toNat_le.mp (hinv.cutoff_le hlt hcap)

/-- Two shares go out; the pool rejects the first one twice and then claims
nine accepts for a batch of one. -/
def forgedAnswers : List (Env × Event) :=
  [.poolMsg (.newMiningJob sampleJob), .poolMsg (.setNewPrevHash sampleTip),
   .share sampleShare, .share sampleShare,
   .poolMsg (.submitSharesError { channelID := 7, sequenceNumber := 1, error := [] }),
   .poolMsg (.submitSharesError { channelID := 7, sequenceNumber := 1, error := [] }),
   .poolMsg (.submitSharesSuccess
     { channelID := 7, lastSequenceNumber := 2, newSubmitsAccepted := 9,
       newSharesSummed := 0 })].map (calmEnv, ·)

theorem shareAccounting_forgedAnswers :
    let s₀ := SessionV2.start Bytes.zero32 zeroMetrics
    let out := (runSession sampleOpts).outputs s₀ forgedAnswers
    let s := (runSession sampleOpts).run s₀ forgedAnswers
    (submittedSeqs out = [1, 2] ∧ settledSeqs out = [1, 2] ∧
      s.m.sharesAccepted = 1 ∧ s.m.sharesRejected = 1) ∧
      ShareAccounting zeroMetrics (sharesFound forgedAnswers) out s :=
  ⟨by decide, runSession_shareAccounting sampleOpts Bytes.zero32 zeroMetrics forgedAnswers
    (by decide)⟩

end Otedama.Engine
