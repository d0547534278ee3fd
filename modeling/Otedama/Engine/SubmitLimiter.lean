import Otedama.Engine.ShareAccounting

/-! # The cap on the rate of submits

`submitLimiter` is a bucket of tokens that starts full and that a ticker
refills one at a time. A share goes out only against a token; one that
finds none is dropped.

However shares, frames and the ticker interleave, any stretch of a session
puts at most `submitBurst` shares on the wire besides one for each tick in it
(`submits_capped`). -/

namespace Otedama.Engine

open List

def submitBurst : Nat := 32

/-- A session and the tokens in its bucket. -/
structure LimitedSession where
  session : SessionV2
  tokens : Nat

inductive LimitedMove where
  /-- The ticker adds a token, unless the bucket is full. -/
  | refill
  /-- A turn of the session loop; `env.token` is read off the bucket. -/
  | turn (env : Env) (ev : Event)

/-- Does the turn call `take`? A superseded share is dropped before that. -/
def takesToken (s : SessionV2) : Event → Bool
  | .share sh => s.ended.isNone && !superseded s sh
  | _ => false

def limitedSession (opts : SessionOpts) : Machine LimitedSession LimitedMove Effect where
  step l
    | .refill =>
        ({ l with tokens := if l.tokens < submitBurst then l.tokens + 1 else l.tokens }, [])
    | .turn env ev =>
        let turn := SessionV2.step opts l.session ({ env with token := 0 < l.tokens }, ev)
        ({ session := turn.1
           tokens := if takesToken l.session ev then l.tokens - 1 else l.tokens }, turn.2)

def refills (moves : List LimitedMove) : Nat :=
  moves.countP fun
    | .refill => true
    | .turn _ _ => false

/-- A turn submits at most the shares it takes from the workers. -/
theorem LedgerStep.length_submitted_le {s s' : SessionV2} {out : List Effect} {shares : Nat}
    (h : LedgerStep s s' out shares) : (submittedSeqs out).length ≤ shares := by
  cases h with
  | idle _ _ _ _ hsub | drop _ _ _ _ _ _ hsub | settle _ _ _ _ _ _ _ _ hsub => simp [hsub]
  | submit hshares _ _ _ _ _ _ hsub => simp [hsub, hshares]

/-- A turn that submits a share has taken a token. -/
theorem submit_takesToken (opts : SessionOpts) (s : SessionV2) (env : Env) (ev : Event)
    (h : submittedSeqs (SessionV2.step opts s (env, ev)).2 ≠ []) :
    takesToken s ev = true ∧ env.token = true := by
  have hle := (step_ledger opts s (env, ev)).length_submitted_le
  cases ev with
  | share sh =>
    unfold SessionV2.step onShare at h
    unfold takesToken
    cases hended : s.ended with
    | some end_ => simp [hended, submittedSeqs] at h
    | none =>
      cases hsuper : superseded s sh with
      | true => simp_all [superseded, submittedSeqs]
      | false =>
        cases htoken : env.token with
        | true => exact ⟨by simp [hsuper], rfl⟩
        | false => simp [hended, htoken, submittedSeqs] at h
  | _ => exact absurd (length_eq_zero_iff.mp (Nat.le_zero.mp hle)) h

/-- What goes out is paid for with tokens. -/
theorem limitedSession_step (opts : SessionOpts) (l : LimitedSession) (mv : LimitedMove) :
    (submittedSeqs ((limitedSession opts).step l mv).2).length +
      ((limitedSession opts).step l mv).1.tokens ≤ l.tokens + refills [mv] := by
  cases mv with
  | refill =>
    simp only [limitedSession, submittedSeqs, refills, filterMap_nil, length_nil, countP_singleton]
    split <;> simp
  | turn env ev =>
    have hle := (step_ledger opts l.session
      ({ env with token := 0 < l.tokens }, ev)).length_submitted_le.trans countP_le_length
    rw [length_singleton] at hle
    have htake := submit_takesToken opts l.session { env with token := 0 < l.tokens } ev
    simp only [limitedSession, refills, countP_singleton, Bool.false_eq_true, if_false]
    generalize submittedSeqs _ = sub at *
    cases sub with
    | nil => split <;> simp
    | cons q sub =>
      obtain ⟨htakes, htoken⟩ := htake (cons_ne_nil q sub)
      have hpos : 0 < l.tokens := of_decide_eq_true htoken
      rw [if_pos htakes]
      omega

/-- Any stretch `window` of a session that starts with a full bucket submits
at most `submitBurst` shares and one more for each refill in it. -/
theorem submits_capped (opts : SessionOpts) (s : SessionV2) (before window : List LimitedMove) :
    (submittedSeqs ((limitedSession opts).outputs
      ((limitedSession opts).run ⟨s, submitBurst⟩ before) window)).length ≤
      submitBurst + refills window := by
  have hfull : ((limitedSession opts).run ⟨s, submitBurst⟩ before).tokens ≤ submitBurst := by
    refine (limitedSession opts).run_invariant (P := fun l => l.tokens ≤ submitBurst)
      (Q := fun _ => True) le_rfl ?_ before fun _ _ => trivial
    rintro l (_ | ⟨env, ev⟩) - hl
    · simp only [limitedSession]
      split <;> omega
    · simp only [limitedSession]
      split <;> omega
  generalize (limitedSession opts).run ⟨s, submitBurst⟩ before = l at *
  suffices h : (submittedSeqs ((limitedSession opts).outputs l window)).length +
      ((limitedSession opts).run l window).tokens ≤ l.tokens + refills window by omega
  clear hfull
  induction window generalizing l with
  | nil => exact le_of_eq (Nat.zero_add _)
  | cons mv window ih =>
    have hstep := limitedSession_step opts l mv
    have hrest := ih ((limitedSession opts).step l mv).1
    rw [Machine.outputs_cons, submittedSeqs_append, length_append, Machine.run_cons]
    have hrefills : refills (mv :: window) = refills [mv] + refills window := by
      simp [refills, countP_cons, Nat.add_comm]
    omega

end Otedama.Engine
