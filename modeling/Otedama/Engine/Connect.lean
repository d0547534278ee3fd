import Otedama.Engine.SessionV1
import Otedama.Poolproto.StratumV1

/-! # Connecting to a pool

`runSession` dials a pool, shakes hands and runs the session loop. The
session loops are modelled elsewhere; this file is about how a session
comes to be established or not, and which error it ends with.

A `Peer` is what the pool and the network do during one session. The CA
bundle of a TLS pool is not modelled: a bundle that does not parse counts
as a failed dial. -/

namespace Otedama.Engine

open Stratum Poolproto

/-! ## Pool URLs -/

inductive ProtocolID where
  | stratumV1
  | stratumV1TLS
  | stratumV2
  | stratumV2TLS
  | datum
  | unknown
  deriving DecidableEq, Repr

/-- The URL schemes and their protocols. -/
def knownSchemes : List (String × ProtocolID) :=
  [("stratum+v2tls://", .stratumV2TLS), ("stratum+v2://", .stratumV2),
   ("stratum+tls://", .stratumV1TLS), ("stratum+tcp://", .stratumV1), ("datum://", .datum)]

/-- `strings.CutPrefix(s, pre)`. -/
def cutPrefix (s pre : String) : Option String :=
  if pre.toList.isPrefixOf s.toList then some (String.ofList (s.toList.drop pre.length)) else none

/-- `poolproto.FromURL`. -/
def fromURL (url : String) : ProtocolID :=
  (knownSchemes.findSome? fun (scheme, proto) => (cutPrefix url scheme).map fun _ => proto).getD
    .unknown

/-- What follows a scheme, if that is not empty. -/
def hostAfter (url scheme : String) : Option String :=
  (cutPrefix url scheme).filter fun rest => rest ≠ ""

/-- `poolproto.StripScheme`, which `parseHost` wraps. -/
def stripScheme (url : String) : Option String :=
  knownSchemes.findSome? fun (scheme, _) => hostAfter url scheme

/-- `stratumv1.parseAddress`. -/
def parseAddress (url : String) : Option String :=
  ["stratum+tcp://", "stratum+tls://"].findSome? (hostAfter url)

/-! ## The Stratum V2 handshake -/

/-- What the client reads next. -/
inductive Reply where
  /-- `ReadFrame` fails: the connection broke, or the deadline passed. -/
  | readError
  /-- `DispatchFrame` fails. -/
  | dispatchError
  | frame (msgType : UInt8) (msg : Message)
  deriving DecidableEq, Repr

/-- What the pool and the network do during one session. A field that the
session does not get to is not read. -/
structure Peer where
  dialed : Bool
  /-- `SetupConnection` could be written. -/
  sentSetup : Bool
  setup : Reply
  /-- `OpenMiningChannel` could be written. -/
  sentOpen : Bool
  channel : Reply
  subscribe : Option (Option Json × Json)
  authorize : Option (Option Json × Json)
  /-- How the session loop ends. -/
  loopEnd : SessionEnd
  loopEndV1 : SessionEndV1

inductive HandshakeError where
  | send
  /-- `"engine: setup response: %w"` -/
  | setupResponse
  | dispatch
  /-- `"pool rejected: %q"` -/
  | poolRejected (error : GoString)
  /-- `"engine: unexpected msg 0x%02X during setup"` -/
  | unexpectedMsg (msgType : UInt8)
  /-- `"engine: pool negotiated version %d outside declared range [%d, %d]"` -/
  | version (used : UInt16)
  /-- `"engine: pool requires flags 0x%08x outside offered set 0x%08x"` -/
  | flags (required : UInt32)
  /-- `"engine: channel response: %w"` -/
  | channelResponse
  /-- `"pool rejected channel open: %q"` -/
  | poolRejectedChannel (error : GoString)
  /-- `"engine: channel open failed"` -/
  | channelOpenFailed
  /-- `"engine: channel response echoes req_id %d, sent %d"` -/
  | reqID (echoed : UInt32)
  deriving DecidableEq, Repr

/-- The versions and flags that `SetupConnection` offers. -/
structure Offer where
  minVersion : UInt16
  maxVersion : UInt16
  flags : UInt32

def setupOffer : Offer where
  minVersion := 2
  maxVersion := 2
  flags := 0

/-- The `req_id` of `OpenMiningChannel`. -/
def openReqID : UInt32 := 1

/-- The exchange about the connection. -/
def setupConnection (sc : Offer) (p : Peer) : Except HandshakeError Unit :=
  if p.sentSetup = false then .error .send
  else
    match p.setup with
    | .readError => .error .setupResponse
    | .dispatchError => .error .dispatch
    | .frame _ (.setupConnectionError m) => .error (.poolRejected m.error)
    | .frame _ (.setupConnectionSuccess m) =>
        if m.usedVersion < sc.minVersion ∨ sc.maxVersion < m.usedVersion then
          .error (.version m.usedVersion)
        else if m.flags &&& ~~~sc.flags ≠ 0 then .error (.flags m.flags)
        else .ok ()
    | .frame msgType _ => .error (.unexpectedMsg msgType)

/-- The exchange about the channel. -/
def openMiningChannel (reqID : UInt32) (p : Peer) :
    Except HandshakeError OpenMiningChannelSuccess :=
  if p.sentOpen = false then .error .send
  else
    match p.channel with
    | .readError => .error .channelResponse
    | .dispatchError => .error .dispatch
    | .frame _ (.openMiningChannelError m) => .error (.poolRejectedChannel m.error)
    | .frame _ (.openMiningChannelSuccess m) =>
        if m.reqID ≠ reqID then .error (.reqID m.reqID) else .ok m
    | .frame _ _ => .error .channelOpenFailed

/-- The channel, its group and the share target that the pool assigns. -/
def handshake (p : Peer) : Except HandshakeError (UInt32 × UInt32 × Bytes32) := do
  setupConnection setupOffer p
  let omcs ← openMiningChannel openReqID p
  pure (omcs.channelID, omcs.groupChannelID, omcs.target)

/-! ## The Stratum V1 handshake -/

inductive NegotiateError where
  /-- `"stratumv1: subscribe: %w"` -/
  | subscribe
  /-- `"%w: subscribe rejected: %v"` -/
  | subscribeRejected
  | subscribeResult (e : SubscribeError)
  /-- `"stratumv1: authorize: %w"` -/
  | authorize
  /-- `"%w: authorization rejected: %v"` -/
  | authorizationRejected
  /-- `"%w: worker not authorized"` -/
  | notAuthorized
  deriving DecidableEq, Repr

/-- The extranonces of the session. Whether the pool takes part in
`extranonce.subscribe` makes no difference. -/
def negotiate (p : Peer) : Except NegotiateError ExtranoncePair :=
  match p.subscribe with
  | none => .error .subscribe
  | some (some _, _) => .error .subscribeRejected
  | some (none, result) =>
      match parseSubscribeResult result with
      | .error e => .error (.subscribeResult e)
      | .ok extranonce =>
          match p.authorize with
          | none => .error .authorize
          | some (some _, _) => .error .authorizationRejected
          | some (none, .bool true) => .ok extranonce
          | some (none, _) => .error .notAuthorized

/-! ## Sessions -/

/-- The error that ends a session. -/
inductive SessionError where
  | unsupportedProtocol (url : String) (proto : ProtocolID)
  | badPoolURL (url : String)
  | dial
  | handshake (e : HandshakeError)
  | negotiate (e : NegotiateError)
  | ended (e : SessionEnd)
  | endedV1 (e : SessionEndV1)
  deriving DecidableEq, Repr

/-- `isFatal`: the errors that `handshake` wraps in a `fatalError`. -/
def isFatal : SessionError → Bool
  | .handshake (.poolRejected _) => true
  | .handshake (.poolRejectedChannel _) => true
  | _ => false

/-- `errors.Is(err, errYieldDegraded)`. -/
def isYieldDegraded : SessionError → Bool
  | .ended .yieldDegraded => true
  | .endedV1 .yieldDegraded => true
  | _ => false

/-- What the caller of `runSession` learns: whether `onConnected` was called,
and the error. -/
structure Outcome where
  connected : Bool
  err : SessionError
  deriving DecidableEq, Repr

def connectV1 (url : String) (p : Peer) : Outcome :=
  match parseAddress url with
  | none => { connected := false, err := .badPoolURL url }
  | some _ =>
      if p.dialed = false then { connected := false, err := .dial }
      else
        match negotiate p with
        | .error e => { connected := false, err := .negotiate e }
        | .ok _ => { connected := true, err := .endedV1 p.loopEndV1 }

def connectV2 (url : String) (p : Peer) : Outcome :=
  match stripScheme url with
  | none => { connected := false, err := .badPoolURL url }
  | some _ =>
      if p.dialed = false then { connected := false, err := .dial }
      else
        match handshake p with
        | .error e => { connected := false, err := .handshake e }
        | .ok _ => { connected := true, err := .ended p.loopEnd }

/-- `runSession`, with the session loop reduced to how it ends. -/
def sessionOutcome (url : String) (p : Peer) : Outcome :=
  match fromURL url with
  | .stratumV1 => connectV1 url p
  | .stratumV1TLS => connectV1 url p
  | .stratumV2 => connectV2 url p
  | .stratumV2TLS => connectV2 url p
  | proto => { connected := false, err := .unsupportedProtocol url proto }

/-! ## Which errors are fatal -/

def Reply.isSetupError : Reply → Bool
  | .frame _ (.setupConnectionError _) => true
  | _ => false

def Reply.isOpenError : Reply → Bool
  | .frame _ (.openMiningChannelError _) => true
  | _ => false

/-- A `SetupConnectionSuccess` within the offer. -/
def Reply.acceptsOffer (sc : Offer) : Reply → Bool
  | .frame _ (.setupConnectionSuccess m) =>
      sc.minVersion ≤ m.usedVersion && m.usedVersion ≤ sc.maxVersion && m.flags &&& ~~~sc.flags == 0
  | _ => false

/-- The pool answers `SetupConnection` with `SetupConnectionError`, or accepts
it and answers `OpenMiningChannel` with `OpenMiningChannelError`. -/
def Peer.rejects (p : Peer) : Bool :=
  p.sentSetup && (p.setup.isSetupError ||
    p.setup.acceptsOffer setupOffer && p.sentOpen && p.channel.isOpenError)

/-- The session goes over Stratum V2, and the pool rejects it. -/
def rejected (url : String) (p : Peer) : Bool :=
  (fromURL url == .stratumV2 || fromURL url == .stratumV2TLS) && (stripScheme url).isSome &&
    p.dialed && p.rejects

theorem setupConnection_cases (sc : Offer) (p : Peer) :
    (setupConnection sc p = .ok () ∧ p.sentSetup = true ∧ p.setup.acceptsOffer sc = true ∧
      p.setup.isSetupError = false) ∨ ∃ e, setupConnection sc p = .error e ∧
      isFatal (.handshake e) = (p.sentSetup && p.setup.isSetupError) ∧
      (p.sentSetup && p.setup.acceptsOffer sc) = false := by
  unfold setupConnection
  cases hsent : p.sentSetup with
  | false => exact .inr ⟨.send, rfl, rfl, rfl⟩
  | true =>
    rw [if_neg (by simp)]
    cases p.setup with
    | readError => exact .inr ⟨_, rfl, rfl, rfl⟩
    | dispatchError => exact .inr ⟨_, rfl, rfl, rfl⟩
    | frame msgType msg =>
      cases msg with
      | setupConnectionError m => exact .inr ⟨_, rfl, rfl, rfl⟩
      | setupConnectionSuccess m =>
        dsimp only
        by_cases hversion : m.usedVersion < sc.minVersion ∨ sc.maxVersion < m.usedVersion
        · right
          refine ⟨_, if_pos hversion, rfl, ?_⟩
          rcases hversion with hlow | hhigh
          · simp [Reply.acceptsOffer, UInt16.not_le.mpr hlow]
          · simp [Reply.acceptsOffer, UInt16.not_le.mpr hhigh]
        · obtain ⟨hlow, hhigh⟩ := not_or.mp hversion
          rw [if_neg hversion]
          by_cases hflags : m.flags &&& ~~~sc.flags ≠ 0
          · right
            refine ⟨_, if_pos hflags, rfl, ?_⟩
            simp [Reply.acceptsOffer, hflags]
          · left
            refine ⟨if_neg hflags, rfl, ?_, rfl⟩
            simp [Reply.acceptsOffer, UInt16.not_lt.mp hlow, UInt16.not_lt.mp hhigh, not_not.mp hflags]
      | _ => exact .inr ⟨_, rfl, rfl, rfl⟩

theorem openMiningChannel_cases (reqID : UInt32) (p : Peer) :
    (∃ m, openMiningChannel reqID p = .ok m ∧ (p.sentOpen && p.channel.isOpenError) = false) ∨
    ∃ e, openMiningChannel reqID p = .error e ∧
      isFatal (.handshake e) = (p.sentOpen && p.channel.isOpenError) := by
  unfold openMiningChannel
  cases hsent : p.sentOpen with
  | false => exact .inr ⟨.send, rfl, rfl⟩
  | true =>
    rw [if_neg (by simp)]
    cases p.channel with
    | readError => exact .inr ⟨_, rfl, rfl⟩
    | dispatchError => exact .inr ⟨_, rfl, rfl⟩
    | frame msgType msg =>
      cases msg with
      | openMiningChannelError m => exact .inr ⟨_, rfl, rfl⟩
      | openMiningChannelSuccess m =>
        dsimp only
        by_cases hreq : m.reqID ≠ reqID
        · exact .inr ⟨_, if_pos hreq, rfl⟩
        · exact .inl ⟨m, if_neg hreq, rfl⟩
      | _ => exact .inr ⟨_, rfl, rfl⟩

/-- The handshake fails fatally exactly when the pool rejects it. -/
theorem handshake_cases (p : Peer) : (∃ opened, handshake p = .ok opened ∧ p.rejects = false) ∨
      ∃ e, handshake p = .error e ∧ isFatal (.handshake e) = p.rejects := by
  unfold handshake Peer.rejects
  rcases setupConnection_cases setupOffer p with ⟨hok, hsent, haccepts, hnot⟩ | ⟨e, herr, hfatal, hno⟩
  · rw [hok, hsent, haccepts, hnot]
    rcases openMiningChannel_cases openReqID p with ⟨m, hopen, hno⟩ | ⟨e, hopen, hfatal⟩
    · left
      rw [hopen]
      exact ⟨_, rfl, by simpa using hno⟩
    · right
      rw [hopen]
      exact ⟨e, rfl, by simpa using hfatal⟩
  · right
    rw [herr]
    refine ⟨e, rfl, hfatal.trans ?_⟩
    rw [Bool.and_or_distrib_left, ← Bool.and_assoc, ← Bool.and_assoc, hno]
    simp

/-- A session over Stratum V1 never ends with a fatal error. -/
theorem isFatal_connectV1 (url : String) (p : Peer) : isFatal (connectV1 url p).err = false := by
  unfold connectV1
  split
  · rfl
  · split
    · rfl
    · split <;> rfl

theorem isFatal_connectV2 (url : String) (p : Peer) :
    isFatal (connectV2 url p).err = ((stripScheme url).isSome && p.dialed && p.rejects) := by
  unfold connectV2
  cases stripScheme url with
  | none => rfl
  | some host =>
    cases hdialed : p.dialed with
    | false => rfl
    | true =>
      dsimp only
      rw [if_neg (by simp)]
      rcases handshake_cases p with ⟨opened, hok, hno⟩ | ⟨e, herr, hfatal⟩
      · rw [hok, hno]
        rfl
      · rw [herr]
        exact hfatal.trans (by simp)

/-- **The fatal errors** are the rejections over Stratum V2. -/
theorem isFatal_sessionOutcome (url : String) (p : Peer) :
    isFatal (sessionOutcome url p).err = rejected url p := by
  unfold sessionOutcome rejected
  cases hproto : fromURL url with
  | stratumV1 => exact isFatal_connectV1 url p
  | stratumV1TLS => exact isFatal_connectV1 url p
  | stratumV2 | stratumV2TLS => exact (isFatal_connectV2 url p).trans (by simp)
  | datum => rfl
  | unknown => rfl

/-- The error comes from the session loop. -/
def SessionError.fromLoop : SessionError → Bool
  | .ended _ => true
  | .endedV1 _ => true
  | _ => false

/-- A session is established exactly when its loop is entered. -/
theorem connected_eq_fromLoop (url : String) (p : Peer) :
    (sessionOutcome url p).connected = (sessionOutcome url p).err.fromLoop := by
  have hV1 : (connectV1 url p).connected = (connectV1 url p).err.fromLoop := by
    unfold connectV1
    cases parseAddress url with
    | none => rfl
    | some host =>
      cases p.dialed with
      | false => rfl
      | true => cases negotiate p <;> rfl
  have hV2 : (connectV2 url p).connected = (connectV2 url p).err.fromLoop := by
    unfold connectV2
    cases stripScheme url with
    | none => rfl
    | some host =>
      cases p.dialed with
      | false => rfl
      | true => cases handshake p <;> rfl
  unfold sessionOutcome
  cases fromURL url with
  | stratumV1 => exact hV1
  | stratumV1TLS => exact hV1
  | stratumV2 => exact hV2
  | stratumV2TLS => exact hV2
  | datum => rfl
  | unknown => rfl

/-- Only an established session can turn out to waste hashpower. -/
theorem connected_of_isYieldDegraded {url : String} {p : Peer}
    (h : isYieldDegraded (sessionOutcome url p).err = true) :
    (sessionOutcome url p).connected = true := by
  rw [connected_eq_fromLoop]
  unfold isYieldDegraded at h
  split at h
  · next herr => rw [herr]; rfl
  · next herr => rw [herr]; rfl
  · cases h

/-- A rejected session is not established. -/
theorem not_connected_of_rejected {url : String} {p : Peer} (h : rejected url p = true) :
    (sessionOutcome url p).connected = false := by
  rw [← isFatal_sessionOutcome] at h
  rw [connected_eq_fromLoop]
  unfold isFatal at h
  split at h
  · next herr => rw [herr]; rfl
  · next herr => rw [herr]; rfl
  · cases h

end Otedama.Engine
