import Otedama.Framework.CaseMapping
import Otedama.Framework.GoMap
import Otedama.Framework.Machine
import Otedama.Poolproto.Job
import Otedama.Stratum.Stream

/-! # The Stratum V2 adapter

The Stratum V2 session behind the protocol-independent interface: the
handshake of `Negotiate`, and the read loop that assembles complete jobs
from `NewMiningJob` and `SetNewPrevHash`.

Writes and reads on the connection succeed, and every job that the loop
emits is taken. -/

namespace Otedama.Poolproto.V2

open Stratum GoString Reader

/-! ## The handshake -/

inductive NegotiateError where
  /-- `stratumv2: send SetupConnection: %w` -/
  | sendSetup (e : SendError)
  /-- An error of `DispatchFrame`. -/
  | dispatch (e : DecodeError)
  /-- `%w: %q`, with `ErrHandshakeFailed` -/
  | handshakeFailed (error : GoString)
  /-- `stratumv2: unexpected msg 0x%02X during setup` -/
  | unexpectedSetup (msgType : UInt8)
  /-- `%w: pool requires flags 0x%08x outside offered set 0x%08x` -/
  | flags (required : UInt32) (offered : UInt32)
  /-- `stratumv2: send OpenMiningChannel: %w` -/
  | sendOpen (e : SendError)
  /-- `stratumv2: unexpected msg 0x%02X during channel open` -/
  | unexpectedChannel (msgType : UInt8)
  /-- `stratumv2: channel response echoes req_id %d, sent %d` -/
  | reqID (echoed : UInt32) (sent : UInt32)
  deriving DecidableEq, Repr

/-- `MaxTargetUnconstrained`: every bit set. -/
def maxTargetUnconstrained : Bytes32 := Vector.replicate 32 0xff

/-- What both clients send first. -/
def setupMsg (endpoint : GoString) : SetupConnection where
  protocol := 0
  minVersion := 2
  maxVersion := 2
  flags := 0
  endpoint := endpoint
  vendor := text "Otedama".toList
  hardwareVersion := text "v3.0.0".toList
  firmware := text "main".toList
  deviceID := text "cpu".toList

/-- What both clients send next; the hash rate is given by its bits. -/
def openMsg (user : GoString) (nominalHashrate : UInt32) : OpenMiningChannel where
  reqID := 1
  user := user
  nominalHashrate := nominalHashrate
  maxTarget := maxTargetUnconstrained

/-- `sendMsg` on a connection that takes everything. -/
def sendMsg (ty : MsgType) (msg : ty.Struct) : Except SendError Unit := do
  let _ ← Outgoing.bytes { type := ty, msg := msg, isChannelMsg := false }
  return ()

/-- The answer to `SetupConnection`. -/
def checkSetup (sc : SetupConnection) (f : Frame) : Except NegotiateError Unit := do
  let msg ← (dispatchFrame f).mapError .dispatch
  match msg.setupConnectionError with
  | some m => .error (.handshakeFailed m.error)
  | none =>
      match msg.setupConnectionSuccess with
      | none => .error (.unexpectedSetup f.header.msgType)
      | some m =>
          if m.flags &&& ~~~sc.flags ≠ 0 then .error (.flags m.flags sc.flags) else return ()

/-- The answer to `OpenMiningChannel`. -/
def checkChannel (omc : OpenMiningChannel) (f : Frame) :
    Except NegotiateError OpenMiningChannelSuccess := do
  let msg ← (dispatchFrame f).mapError .dispatch
  match msg.openMiningChannelError with
  | some m => .error (.handshakeFailed m.error)
  | none =>
      match msg.openMiningChannelSuccess with
      | none => .error (.unexpectedChannel f.header.msgType)
      | some m => if m.reqID ≠ omc.reqID then .error (.reqID m.reqID omc.reqID) else return m

/-- `Negotiate` with the frames that the pool answers; the channel of the
session. -/
def negotiate (remoteAddr user : GoString) (setup channel : Frame) :
    Except NegotiateError UInt32 := do
  let sc := setupMsg remoteAddr
  (sendMsg .setupConnection sc).mapError .sendSetup
  checkSetup sc setup
  let omc := openMsg user 0
  (sendMsg .openMiningChannel omc).mapError .sendOpen
  let omcs ← checkChannel omc channel
  return omcs.channelID

/-! ## The read loop -/

def pendingCap : Nat := 64

structure Sv2JobAssembler where
  pending : GoMap UInt32 NewMiningJob
  pendingOrder : List UInt32
  prevHash : Bytes32
  prevNBits : UInt32
  havePrev : Bool

/-- The assembler of a new read loop. -/
def Sv2JobAssembler.init : Sv2JobAssembler where
  pending := ∅
  pendingOrder := []
  prevHash := Bytes.zero32
  prevNBits := 0
  havePrev := false

/-- `strconv.FormatUint(n, 10)` -/
def formatUint (n : UInt32) : GoString := text (Nat.toDigits 10 n.toNat)

/-- The job that `emit` sends. -/
def Sv2JobAssembler.emit (a : Sv2JobAssembler) (j : NewMiningJob) (ntime : UInt32)
    (clean : Bool) : Job :=
  { Job.zero with
    jobID := formatUint j.jobID
    version := j.version
    prevHash := a.prevHash
    merkleRoot := j.merkleRoot
    nTime := ntime
    nBits := a.prevNBits
    cleanJobs := clean }

/-- The eviction loop of `onNewMiningJob`. -/
def evict : GoMap UInt32 NewMiningJob → List UInt32 → GoMap UInt32 NewMiningJob × List UInt32
  | pending, [] => (pending, [])
  | pending, id :: order =>
      if (id :: order).length > pendingCap then evict (pending.erase id) order
      else (pending, id :: order)

def Sv2JobAssembler.onNewMiningJob (a : Sv2JobAssembler) (j : NewMiningJob) :
    Sv2JobAssembler × List Job :=
  let order := if j.jobID ∈ a.pending then a.pendingOrder else a.pendingOrder ++ [j.jobID]
  let kept := evict (a.pending.insert j.jobID j) order
  let a := { a with pending := kept.1, pendingOrder := kept.2 }
  -- A future job, or a job without a tip, is held.
  if j.hasNtimeStart && a.havePrev then (a, [a.emit j j.ntimeStart false]) else (a, [])

def Sv2JobAssembler.onSetNewPrevHash (a : Sv2JobAssembler) (p : SetNewPrevHash) :
    Sv2JobAssembler × List Job :=
  let tip := { a with prevHash := p.prevHash, prevNBits := p.nBits, havePrev := true }
  match a.pending.lookup p.jobID with
  | none => ({ tip with pending := ∅, pendingOrder := [] }, [])
  | some named =>
      let tip := { tip with pending := AList.singleton p.jobID named, pendingOrder := [p.jobID] }
      let ntime :=
        if named.hasNtimeStart && named.ntimeStart > p.ntimeStart then named.ntimeStart
        else p.ntimeStart
      (tip, [tip.emit named ntime true])

/-- The read loop: the messages in, the jobs out. -/
def readLoop : Machine Sv2JobAssembler Message Job where
  step a
    | .newMiningJob j => a.onNewMiningJob j
    | .setNewPrevHash p => a.onSetNewPrevHash p
    | _ => (a, [])

/-! ## What the handshake accepts -/

/-- A message that can be encoded can be sent. -/
theorem sendMsg_eq_ok {ty : MsgType} {msg : ty.Struct} :
    sendMsg ty msg = .ok () ↔ ∃ payload, ty.encode msg = .ok payload := by
  unfold sendMsg Outgoing.bytes
  constructor
  · intro h
    obtain ⟨bs, hbs, -⟩ := bind_eq_ok.mp h
    obtain ⟨payload, hpayload, -⟩ := bind_eq_ok.mp hbs
    exact ⟨payload, mapError_eq_ok.mp hpayload⟩
  · intro h
    obtain ⟨payload, hpayload⟩ := h
    have hle := MsgType.encode_length_le hpayload
    have hnat : (UInt32.ofNat payload.length).toNat = payload.length :=
      UInt32.toNat_ofNat_of_lt' (lt_of_le_of_lt hle (by decide))
    -- The message is far below the limits of a frame, and not of a channel.
    have hvalid : FrameHeader.validate ⟨0, ty.code, UInt32.ofNat payload.length⟩ = .ok () := by
      unfold FrameHeader.validate maxMessageLength
      rw [if_neg (by dsimp only; omega), if_neg (by simp [FrameHeader.channelMsg])]
    have hwrap : wrapMessage ty.code false payload =
        .ok ⟨⟨0, ty.code, UInt32.ofNat payload.length⟩, payload⟩ := by
      show (FrameHeader.validate ⟨0, ty.code, UInt32.ofNat payload.length⟩ >>= _) = _
      rw [hvalid]
      rfl
    obtain ⟨bs, hbs⟩ : ∃ bs, encodeFrame ⟨⟨0, ty.code, UInt32.ofNat payload.length⟩, payload⟩ =
        .ok bs :=
      ⟨_, encodeFrame_eq_ok.mpr ⟨by unfold maxMessageLength; dsimp only; omega, hvalid, rfl⟩⟩
    rw [hpayload]
    show ((wrapMessage ty.code false payload).mapError SendError.frame >>= _) >>= _ = _
    rw [hwrap]
    show (encodeFrame _).mapError SendError.frame >>= _ = _
    rw [hbs]
    rfl

theorem sendSetup_eq_ok {endpoint : GoString} :
    sendMsg .setupConnection (setupMsg endpoint) = .ok () ↔ endpoint.length ≤ 255 := by
  rw [sendMsg_eq_ok]
  simp only [MsgType.encode, SetupConnection.encode, List.foldlM_cons, List.foldlM_nil,
    bind_eq_ok, appendStr0255_eq_ok]
  constructor
  · intro h
    obtain ⟨_, _, ⟨hlen, -⟩, -⟩ := h
    exact hlen
  · intro h
    have hfixed : (text "Otedama".toList).length ≤ 255 ∧ (text "v3.0.0".toList).length ≤ 255 ∧
        (text "main".toList).length ≤ 255 ∧ (text "cpu".toList).length ≤ 255 := by decide
    obtain ⟨hvendor, hhardware, hfirmware, hdevice⟩ := hfixed
    exact ⟨_, _, ⟨h, rfl⟩, _, ⟨hvendor, rfl⟩, _, ⟨hhardware, rfl⟩, _, ⟨hfirmware, rfl⟩, _,
      ⟨hdevice, rfl⟩, rfl⟩

theorem sendOpen_eq_ok {user : GoString} {nominalHashrate : UInt32} :
    sendMsg .openMiningChannel (openMsg user nominalHashrate) = .ok () ↔ user.length ≤ 255 := by
  rw [sendMsg_eq_ok]
  simp only [MsgType.encode, OpenMiningChannel.encode, bind_eq_ok, appendStr0255_eq_ok]
  constructor
  · intro h
    obtain ⟨_, _, ⟨hlen, -⟩, -⟩ := h
    exact hlen
  · intro h
    exact ⟨_, _, ⟨h, rfl⟩, rfl⟩

theorem checkSetup_eq_ok {sc : SetupConnection} {f : Frame} : checkSetup sc f = .ok () ↔
      ∃ m, decodeMessage f = .ok (.setupConnectionSuccess m) ∧ m.flags &&& ~~~sc.flags = 0 := by
  unfold checkSetup
  rw [dispatchFrame_eq]
  cases decodeMessage f with
  | error e =>
    constructor
    · intro h
      cases h
    · intro h
      obtain ⟨_, h, -⟩ := h
      cases h
  | ok msg =>
    show (match msg.fields.setupConnectionError with
      | some m => Except.error (NegotiateError.handshakeFailed m.error)
      | none => match msg.fields.setupConnectionSuccess with
        | none => .error (.unexpectedSetup f.header.msgType)
        | some m => if m.flags &&& ~~~sc.flags ≠ 0 then .error (.flags m.flags sc.flags)
            else return ()) = .ok () ↔ _
    cases msg with
    | setupConnectionSuccess m =>
      show (if m.flags &&& ~~~sc.flags ≠ 0 then _ else _) = _ ↔ _
      by_cases hflags : m.flags &&& ~~~sc.flags = 0
      · rw [if_neg (not_not.mpr hflags)]
        exact iff_of_true rfl ⟨m, rfl, hflags⟩
      · rw [if_pos hflags]
        simp [hflags]
    | _ => simp [Message.fields]

theorem checkChannel_eq_ok {omc : OpenMiningChannel} {f : Frame} {m : OpenMiningChannelSuccess} :
    checkChannel omc f = .ok m ↔
      decodeMessage f = .ok (.openMiningChannelSuccess m) ∧ m.reqID = omc.reqID := by
  unfold checkChannel
  rw [dispatchFrame_eq]
  cases decodeMessage f with
  | error e =>
    constructor
    · intro h
      cases h
    · intro h
      cases h.1
  | ok msg =>
    show (match msg.fields.openMiningChannelError with
      | some m => Except.error (NegotiateError.handshakeFailed m.error)
      | none => match msg.fields.openMiningChannelSuccess with
        | none => .error (.unexpectedChannel f.header.msgType)
        | some m => if m.reqID ≠ omc.reqID then .error (.reqID m.reqID omc.reqID)
            else return m) = .ok m ↔ _
    cases msg with
    | openMiningChannelSuccess x =>
      show (if x.reqID ≠ omc.reqID then _ else _) = _ ↔ _
      by_cases hreq : x.reqID = omc.reqID
      · rw [if_neg (not_not.mpr hreq)]
        constructor
        · intro h
          cases h
          exact ⟨rfl, hreq⟩
        · intro h
          cases h.1
          rfl
      · rw [if_pos hreq]
        constructor
        · intro h
          cases h
        · intro h
          cases h.1
          exact absurd h.2 hreq
    | _ => simp [Message.fields]

/-- The handshake of the adapter, without the order of its tests. The
version that the pool chose is not among them. -/
theorem negotiate_eq_ok {remoteAddr user : GoString} {setup channel : Frame} {chanID : UInt32} :
    negotiate remoteAddr user setup channel = .ok chanID ↔
      remoteAddr.length ≤ 255 ∧ user.length ≤ 255 ∧
      (∃ m, decodeMessage setup = .ok (.setupConnectionSuccess m) ∧ m.flags = 0) ∧
      ∃ m, decodeMessage channel = .ok (.openMiningChannelSuccess m) ∧ m.reqID = 1 ∧
        m.channelID = chanID := by
  have hflags : ∀ x : UInt32, x &&& ~~~(setupMsg remoteAddr).flags = x := by
    intro x
    show x &&& ~~~0 = x
    simp
  unfold negotiate
  simp only [bind_eq_ok, mapError_eq_ok, checkChannel_eq_ok]
  constructor
  · intro h
    obtain ⟨_, hsend, _, hsetup, _, hopen, m, ⟨hm, hreq⟩, hchan⟩ := h
    obtain ⟨s, hs, hzero⟩ := checkSetup_eq_ok.mp hsetup
    rw [hflags] at hzero
    exact ⟨sendSetup_eq_ok.mp hsend, sendOpen_eq_ok.mp hopen, ⟨s, hs, hzero⟩, m, hm, hreq,
      Except.ok.inj hchan⟩
  · intro h
    obtain ⟨haddr, huser, ⟨s, hs, hzero⟩, m, hm, hreq, hchan⟩ := h
    have hsetup : checkSetup (setupMsg remoteAddr) setup = .ok () :=
      checkSetup_eq_ok.mpr ⟨s, hs, (hflags _).trans hzero⟩
    exact ⟨(), sendSetup_eq_ok.mpr haddr, (), hsetup, (), sendOpen_eq_ok.mpr huser, m,
      ⟨hm, hreq⟩, congrArg Except.ok hchan⟩

end Otedama.Poolproto.V2
