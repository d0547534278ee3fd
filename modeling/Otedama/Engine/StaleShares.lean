import Otedama.Engine.System

/-! # Stale shares

A session submits a share when the share's 32-bit job identifier is that
of the current job. Shares outlive jobs and sessions: they wait in the
workers' channels, with the forwarding goroutines and in the merged
channel. So a share of an older job, or of a dead session, is submitted
whenever its job happens to have the identifier of the current one.

The gate is an `IdGate` over everything in flight. It is sound in every
run in which a job becomes current only while nothing in flight shares
its identifier without being of that job (`SafeActivation`). -/

namespace Otedama.Engine

open Miner Stratum Poolproto List

/-! ## The gate -/

section

variable {τ : Type} (sel : Session → Bool) (tag : Token → τ)

def Token.wireID (token : Token) : UInt32 := token.job.wireID

/-- The current job, in sessions that `sel` selects. -/
def System.currentOf (sys : System) : Option Token :=
  if sel sys.session then sys.current else none

/-- Everything in flight that the session would submit has the tag of the
current job. -/
def GateSound (sys : System) : Prop :=
  IdGate.Sound Token.wireID tag (sys.currentOf sel) (sys.flight.map Issue.token)

/-- The move makes a job current only if nothing in flight shares its
identifier without sharing its tag. -/
def SafeActivation (sha256 : List UInt8 → Bytes32) (sys : System) (move : Move) : Prop :=
  ∀ sys' ∈ sys.next sha256 move, ∀ token ∈ sys'.currentOf sel,
    sys.currentOf sel ≠ some token →
      IdGate.Safe Token.wireID tag (sys.flight.map Issue.token) token

instance [DecidableEq τ] (sha256 : List UInt8 → Bytes32) (sys : System) (move : Move) :
    Decidable (SafeActivation sel tag sha256 sys move) :=
  inferInstanceAs (Decidable (∀ sys' ∈ sys.next sha256 move, ∀ token ∈ sys'.currentOf sel,
    sys.currentOf sel ≠ some token → ∀ x ∈ sys.flight.map Issue.token,
      x.wireID = token.wireID → tag x = tag token))

variable {sel tag} {sys sys' : System}

theorem System.currentOf_eq_some {token : Token} (h : sys.currentOf sel = some token) :
    sel sys.session = true ∧ sys.current = some token := by
  unfold System.currentOf at h
  split at h
  · next hsel => exact ⟨hsel, h⟩
  · cases h

/-- One step keeps the gate sound. -/
theorem GateSound.next {sha256 : List UInt8 → Bytes32} {move : Move}
    (hsound : GateSound sel tag sys) (hcoherent : sys.session.Coherent)
    (hsafe : SafeActivation sel tag sha256 sys move)
    (h : sys.next sha256 move = some sys') : GateSound sel tag sys' := by
  refine IdGate.Sound.step hsound ?_ ?_
  · -- Only the current job is put into flight.
    intro token htoken x hx
    obtain ⟨issue, hissue, rfl⟩ := mem_map.mp hx
    rcases System.next_flight hcoherent h hissue with hold | hcurrent
    · exact .inl (mem_map_of_mem hold)
    · right
      have hsame := (System.currentOf_eq_some htoken).2
      rw [hcurrent] at hsame
      exact Option.some.inj hsame
  · -- A job that was not current before is covered by the condition.
    intro token htoken
    by_cases hsame : sys.currentOf sel = some token
    · exact .inl hsame
    · exact .inr (hsafe sys' h token htoken hsame)

/-- A share that passes a sound gate has the tag of the current job. -/
theorem GateSound.submitted (hsound : GateSound sel tag sys) (hsel : sel sys.session = true)
    {share : Flying} {c : Current} (hshare : share ∈ sys.merged)
    (hcurrent : sys.session.current = some c) (hid : share.share.jobID = c.wireID) :
    tag share.ref.token = tag { session := sys.sessionNo, job := c } := by
  have htoken : sys.currentOf sel = some { session := sys.sessionNo, job := c } := by
    rw [System.currentOf, if_pos hsel, System.current, hcurrent]
    rfl
  have hflight : share.ref ∈ sys.flight := System.mem_flight.mpr (.inr (.inl ⟨share, hshare, rfl⟩))
  refine hsound _ htoken _ (mem_map_of_mem hflight) ?_
  exact share.jobID_eq.symm.trans hid

end

/-! ## Dead sessions and superseded tips -/

/-- The session keeps its job although the pool has moved on to another tip:
a Stratum V1 loop passes over a job that arrives while the price gate is
up, or whose target cannot be computed. -/
def passesOver (sys : System) : Move → Bool
  | .turnV1 env (.job job d) =>
      match sys.session with
      | .v1 _ s _ => s.haveJob && job.prevHash != s.lastJob.prevHash &&
          (env.curtailed || !(applyJob env.unix job d).isOk)
      | _ => false
  | _ => false

/-- The move starts no job whose identifier is in flight for another job, and
passes over no new tip. -/
structure Orderly (sha256 : List UInt8 → Bytes32) (sys : System) (move : Move) : Prop where
  activation : SafeActivation (fun _ => true) id sha256 sys move
  follows : passesOver sys move = false

instance (sha256 : List UInt8 → Bytes32) (sys : System) (move : Move) :
    Decidable (Orderly sha256 sys move) :=
  decidable_of_iff
    (SafeActivation (fun _ => true) id sha256 sys move ∧ passesOver sys move = false)
    ⟨fun h => ⟨h.1, h.2⟩, fun h => ⟨h.activation, h.follows⟩⟩

/-- The current job is on the tip that was announced last. -/
def Session.TipCurrent (session : Session) : Prop :=
  ∀ c, session.current = some c → session.tip = c.template.prevHash

section

variable {sys sys' : System}

theorem Session.tipCurrent_v2 (opts : SessionOpts) (s : SessionV2) :
    (Session.v2 opts s).TipCurrent := by
  intro c hc
  obtain ⟨j, -, rfl⟩ := Option.map_eq_some_iff.mp hc
  rfl

theorem Session.tipCurrent_v1 {yieldFailover : Bool} {s : SessionV1} {tip : Bytes32} :
    (Session.v1 yieldFailover s tip).TipCurrent ↔
      (s.haveJob = true → tip = s.lastJob.prevHash) := by
  constructor
  · intro h hjob
    exact h _ (Session.current_v1 yieldFailover tip hjob)
  · intro h c hc
    by_cases hjob : s.haveJob = true
    · rw [Session.current_v1 yieldFailover tip hjob] at hc
      obtain rfl := Option.some.inj hc
      exact h hjob
    · rw [Session.current, if_neg hjob] at hc
      cases hc

/-- A turn of a Stratum V1 session that passes over no new tip. -/
theorem Session.tipCurrent_turnV1 {yieldFailover : Bool} {s : SessionV1} {tip : Bytes32}
    {env : Env} {e : EventV1} (hlive : s.ended = none)
    (hsession : sys.session = .v1 yieldFailover s tip)
    (hfollows : passesOver sys (.turnV1 env e) = false)
    (htip : (Session.v1 yieldFailover s tip).TipCurrent) :
    (Session.v1 yieldFailover (SessionV1.step yieldFailover s (env, e)).1
      (announcedTip tip e)).TipCurrent := by
  rw [Session.tipCurrent_v1] at htip ⊢
  have hturn := SessionV1.step_turn yieldFailover hlive env e
  generalize SessionV1.step yieldFailover s (env, e) = r at hturn ⊢
  cases hturn with
  | applied => exact fun _ => rfl
  | retargeted => exact htip
  | submitted => exact htip
  | quiet hjob hlast _ _ hpassed =>
    simp only [hjob, hlast]
    cases e with
    | job job d =>
      -- The job was passed over; on another tip the condition forbids that.
      intro hhave
      by_contra hne
      have hpast : (env.curtailed || !(applyJob env.unix job d).isOk) = true := by
        rcases hpassed job d rfl with hcurtailed | ⟨err, herr⟩
        · simp [hcurtailed]
        · simp [herr, Except.isOk, Except.toBool]
      have hne' : (job.prevHash != s.lastJob.prevHash) = true := bne_iff_ne.mpr hne
      simp [passesOver, hsession, hhave, hne', hpast] at hfollows
    | _ => exact htip

/-- One step. -/
theorem System.next_tipCurrent {sha256 : List UInt8 → Bytes32} {move : Move}
    (htip : sys.session.TipCurrent) (hfollows : passesOver sys move = false)
    (h : sys.next sha256 move = some sys') : sys'.session.TipCurrent := by
  cases System.next_stepped h with
  | startV2 => exact Session.tipCurrent_v2 _ _
  | startV1 => exact Session.tipCurrent_v1.mpr fun hjob => Bool.noConfusion hjob
  | turnV2 => exact Session.tipCurrent_v2 _ _
  | turnV1 hsession _ hlive =>
    exact Session.tipCurrent_turnV1 hlive hsession hfollows (hsession ▸ htip)
  | takeShare _ _ hdeliver =>
    obtain ⟨session, log, rfl, -, hcurrent, hsame, -⟩ := System.deliver_eq_some hdeliver
    intro c hc
    show session.tip = _
    rw [hsame]
    exact htip c (hcurrent ▸ hc)
  | reconnect => exact fun c hc => by cases hc
  | setWork _ hrig | idle hrig | reload hrig | hash hrig =>
    exact (System.moveRig_session hrig).1 ▸ htip
  | pickUp => exact htip
  | putDown => exact htip

end

/-- The share was ground from work of the session that submits it, and its
header has the content of the current job and the latest tip. -/
structure Submission.Fresh (sub : Submission) : Prop where
  session : sub.share.ref.session = sub.session
  job : ∃ c, sub.current = some c ∧ sub.share.header.template = c.template
  tip : sub.share.header.prevHash = sub.tip

/-- What holds in every state of an orderly run. -/
structure FreshInv (sys : System) : Prop where
  coherent : sys.session.Coherent
  tip : sys.session.TipCurrent
  gate : GateSound (fun _ => true) id sys
  log : ∀ sub ∈ sys.log, sub.Fresh

theorem FreshInv.start (cfgs : List WorkerConfig) (m : ShareMetrics) :
    FreshInv (System.start cfgs m) where
  coherent := trivial
  tip := fun c hc => by cases hc
  gate := IdGate.Sound.of_none
  log := forall_mem_nil _

theorem FreshInv.next {sha256 : List UInt8 → Bytes32} {sys sys' : System} {move : Move}
    (hinv : FreshInv sys) (horderly : Orderly sha256 sys move)
    (h : sys.next sha256 move = some sys') : FreshInv sys' where
  coherent := System.next_coherent hinv.coherent h
  tip := System.next_tipCurrent hinv.tip horderly.follows h
  gate := hinv.gate.next hinv.coherent horderly.activation h
  log := by
    intro sub hsub
    rcases System.next_log h hsub with hold | ⟨share, wire, c, rfl, hmerged, hcurrent, hid, -⟩
    · exact hinv.log sub hold
    · -- The gate let the share through, so it is of the current job.
      have htoken := hinv.gate.submitted rfl hmerged hcurrent hid
      have htemplate : share.header.template = c.template :=
        share.template_eq.trans (congrArg (fun token => token.job.template) htoken)
      refine ⟨congrArg Token.session htoken, ⟨c, hcurrent, htemplate⟩, ?_⟩
      show share.header.prevHash = sys.session.tip
      rw [hinv.tip c hcurrent, ← htemplate]
      rfl

/-- **No stale share reaches a pool** in an orderly run: over any sequence of
sessions and any interleaving, every submitted share was ground from work
of the session that submits it, for its current job on the latest tip. -/
theorem submissions_fresh (sha256 : List UInt8 → Bytes32) (cfgs : List WorkerConfig)
    (m : ShareMetrics) {sys : System}
    (hreach : (engine sha256).Reach (Orderly sha256) (System.start cfgs m) sys) :
    ∀ sub ∈ sys.log, sub.Fresh := by
  have hinv : FreshInv sys :=
    hreach.invariant (FreshInv.start cfgs m) fun _ _ _ hinv horderly h => hinv.next horderly h
  exact hinv.log

/-- A Stratum V2 session submits a share of job 1 and finds another, which
the next session, whose job has the identifier 2, drops; it then submits
a share of its own. -/
def twoSessions : List Move :=
  [.startV2 sampleOpts easyTarget, .turnV2 calmEnv (.poolMsg (.newMiningJob sampleJob)),
   .turnV2 calmEnv (.poolMsg (.setNewPrevHash sampleTip)), .setWork, .reload 0 0, .hash 0 0,
   .pickUp 0, .putDown 0, .takeShare calmEnv, .hash 0 0, .pickUp 0, .putDown 0,
   .turnV2 calmEnv .poolClosed, .reconnect, .setWork,
   .startV1 false, .turnV1 calmEnv (.job (sampleJobV1 [0x32] Bytes.zero32) 0), .setWork,
   .takeShare calmEnv, .reload 0 1, .hash 0 1, .pickUp 0, .putDown 0, .takeShare calmEnv]

theorem twoSessions_fresh : ∃ sys,
    (engine fun _ => Bytes.zero32).exec (System.start [sampleConfig] zeroMetrics) twoSessions =
      some sys ∧ sys.log.length = 2 ∧ ∀ sub ∈ sys.log, sub.Fresh := by
  have hlength : ((engine fun _ => Bytes.zero32).exec (System.start [sampleConfig] zeroMetrics)
      twoSessions).map (fun sys => sys.log.length) = some 2 := by decide
  obtain ⟨sys, hexec, hlog⟩ := Option.map_eq_some_iff.mp hlength
  have hreach := (LTS.Reach.init (C := Orderly fun _ => Bytes.zero32)).exec twoSessions
    (by decide) hexec
  exact ⟨sys, hexec, hlog, submissions_fresh _ _ _ hreach⟩

/-- A submission with a given property, read off an execution. -/
theorem exists_submission (labels : List Move) {p : Submission → Bool}
    (h : ((engine fun _ => Bytes.zero32).exec (System.start [sampleConfig] zeroMetrics)
      labels).any (fun sys => sys.log.any p) = true) :
    ∃ sys, (engine fun _ => Bytes.zero32).exec (System.start [sampleConfig] zeroMetrics) labels =
      some sys ∧ ∃ sub ∈ sys.log, p sub = true := by
  obtain ⟨sys, hexec, hany⟩ := (Option.any_eq_true _ _).mp h
  obtain ⟨sub, hsub, hp⟩ := any_eq_true.mp hany
  exact ⟨sys, hexec, sub, hsub, hp⟩

/-- A share of job 1 is still in the merged channel when the connection
drops. The next session also numbers its first job 1, with another
Merkle root. -/
def reusedJobID : List Move :=
  [.startV2 sampleOpts easyTarget, .turnV2 calmEnv (.poolMsg (.newMiningJob sampleJob)),
   .turnV2 calmEnv (.poolMsg (.setNewPrevHash sampleTip)), .setWork, .reload 0 0, .hash 0 0,
   .pickUp 0, .putDown 0, .turnV2 calmEnv .poolClosed, .reconnect, .setWork,
   .startV2 sampleOpts easyTarget,
   .turnV2 calmEnv (.poolMsg (.newMiningJob { sampleJob with merkleRoot := easyTarget })),
   .turnV2 calmEnv (.poolMsg (.setNewPrevHash sampleTip)), .setWork, .takeShare calmEnv]

/-- The second session submits the share of the first, under its own job. -/
theorem reusedJobID_submits_leftover : ∃ sys,
    (engine fun _ => Bytes.zero32).exec (System.start [sampleConfig] zeroMetrics) reusedJobID =
      some sys ∧
    ∃ sub ∈ sys.log, sub.session = 2 ∧ sub.share.ref.session = 1 ∧
      sub.share.header.merkleRoot = Bytes.zero32 ∧
      sub.current.map (fun c => c.template.merkleRoot) = some easyTarget ∧ ¬ sub.Fresh := by
  obtain ⟨sys, hexec, sub, hsub, hp⟩ := exists_submission reusedJobID
    (p := fun sub => sub.session == 2 && sub.share.ref.session == 1 &&
      sub.share.header.merkleRoot == Bytes.zero32 &&
      sub.current.map (fun c => c.template.merkleRoot) == some easyTarget) (by decide)
  simp only [Bool.and_eq_true, beq_iff_eq] at hp
  obtain ⟨⟨⟨hsession, hissue⟩, hroot⟩, hcurrent⟩ := hp
  refine ⟨sys, hexec, sub, hsub, hsession, hissue, hroot, hcurrent, ?_⟩
  intro hfresh
  have hsame := hfresh.session
  omega

/-! ## The name of a Stratum V1 job -/

/-- The move makes a Stratum V1 job current only if nothing in flight shares
its identifier without being of this session and this `job_id`. -/
abbrev SafeNames : (List UInt8 → Bytes32) → System → Move → Prop :=
  SafeActivation Session.isV1 fun token => (token.session, token.job.name)

/-- The submission carries the `job_id` of the notify that the share was
ground on, in the session of that notify. -/
def Submission.NamesItsJob (sub : Submission) : Prop :=
  ∀ sent, sub.wire = .v1 sent →
    sub.share.ref.session = sub.session ∧ sub.share.ref.name = some sent.jobID

structure NamesInv (sys : System) : Prop where
  coherent : sys.session.Coherent
  gate : GateSound Session.isV1 (fun token => (token.session, token.job.name)) sys
  log : ∀ sub ∈ sys.log, sub.NamesItsJob

theorem NamesInv.start (cfgs : List WorkerConfig) (m : ShareMetrics) :
    NamesInv (System.start cfgs m) where
  coherent := trivial
  gate := IdGate.Sound.of_none
  log := forall_mem_nil _

theorem NamesInv.next {sha256 : List UInt8 → Bytes32} {sys sys' : System} {move : Move}
    (hinv : NamesInv sys) (hsafe : SafeNames sha256 sys move)
    (h : sys.next sha256 move = some sys') : NamesInv sys' where
  coherent := System.next_coherent hinv.coherent h
  gate := hinv.gate.next hinv.coherent hsafe h
  log := by
    intro sub hsub
    rcases System.next_log h hsub with hold | ⟨share, wire, c, rfl, hmerged, hcurrent, hid, hv1⟩
    · exact hinv.log sub hold
    · intro sent hwire
      obtain ⟨hsel, hname⟩ := hv1 sent hwire
      have htag := hinv.gate.submitted hsel hmerged hcurrent hid
      obtain ⟨hsession, hsame⟩ := Prod.mk.inj htag
      exact ⟨hsession, hsame.trans hname⟩

/-- **Job identity.**  In every run in which Stratum V1 jobs become current
only under identifiers that are not in flight for another job, each
`mining.submit` carries the `job_id` its share was ground on. -/
theorem v1_submissions_name_their_job (sha256 : List UInt8 → Bytes32) (cfgs : List WorkerConfig)
    (m : ShareMetrics) {sys : System}
    (hreach : (engine sha256).Reach (SafeNames sha256) (System.start cfgs m) sys) :
    ∀ sub ∈ sys.log, sub.NamesItsJob := by
  have hinv : NamesInv sys :=
    hreach.invariant (NamesInv.start cfgs m) fun _ _ _ hinv hsafe h => hinv.next hsafe h
  exact hinv.log

/-- A job "1" is ground; its share reaches the merged channel, and then the
job `next` arrives. -/
def v1JobChange (next : GoString) : List Move :=
  [.startV1 false, .turnV1 calmEnv (.job (sampleJobV1 [0x31] Bytes.zero32) 0), .setWork,
   .reload 0 0, .hash 0 0, .pickUp 0, .putDown 0, .takeShare calmEnv, .hash 0 0, .pickUp 0,
   .putDown 0, .turnV1 calmEnv (.job (sampleJobV1 next easyTarget) 0), .setWork,
   .takeShare calmEnv]

/-- When the next job is "2", only the share that was in time is submitted. -/
theorem v1JobChange_names_two : ∃ sys,
    (engine fun _ => Bytes.zero32).exec (System.start [sampleConfig] zeroMetrics)
      (v1JobChange [0x32]) = some sys ∧ sys.log.length = 1 ∧
    ∀ sub ∈ sys.log, sub.NamesItsJob := by
  have hlength : ((engine fun _ => Bytes.zero32).exec (System.start [sampleConfig] zeroMetrics)
      (v1JobChange [0x32])).map (fun sys => sys.log.length) = some 1 := by decide
  obtain ⟨sys, hexec, hlog⟩ := Option.map_eq_some_iff.mp hlength
  have hreach := (LTS.Reach.init (C := SafeNames fun _ => Bytes.zero32)).exec
    (v1JobChange [0x32]) (by decide) hexec
  exact ⟨sys, hexec, hlog, v1_submissions_name_their_job _ _ _ hreach⟩

/-- When the next job is "01", whose identifier is 1 as well, the share that
was ground on "1" is submitted under "01". -/
theorem v1JobChange_misnames : ∃ sys,
    (engine fun _ => Bytes.zero32).exec (System.start [sampleConfig] zeroMetrics)
      (v1JobChange [0x30, 0x31]) = some sys ∧
    ∃ sub ∈ sys.log, sub.share.ref.name = some [0x31] ∧
      (∃ sent, sub.wire = .v1 sent ∧ sent.jobID = [0x30, 0x31]) ∧ ¬ sub.NamesItsJob := by
  obtain ⟨sys, hexec, sub, hsub, hp⟩ := exists_submission (v1JobChange [0x30, 0x31])
    (p := fun sub => sub.share.ref.name == some [0x31] &&
      sub.wire == .v1 { jobID := [0x30, 0x31], nonce := 2, nTime := 0, extraNonce := [] })
    (by decide)
  simp only [Bool.and_eq_true, beq_iff_eq] at hp
  obtain ⟨hname, hwire⟩ := hp
  refine ⟨sys, hexec, sub, hsub, hname, ⟨_, hwire, rfl⟩, ?_⟩
  intro hnames
  have hsame := (hnames _ hwire).2
  rw [hname] at hsame
  cases hsame

end Otedama.Engine
