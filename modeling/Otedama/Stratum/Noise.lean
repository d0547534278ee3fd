import Otedama.Framework.Bytes
import Otedama.Framework.Machine

/-! # The encrypted transport

One direction of an encrypted connection: a writer that seals each
payload under the next nonce, and a reader that opens each frame under
its own count. The two counts are never exchanged.

The writer counts a payload before it finds that the payload is too
large. From then on it is ahead of the reader, and the next frame that
it does send cannot be opened.

The cipher is ideal. The byte stream between the two loses nothing, so
a `Write` puts its whole frame on the wire, and a `Read` for which the
frame is not there yet waits: it is a move that changes nothing. -/

namespace Otedama.Stratum.Noise

open UInt64

open List hiding Vector

open Bytes

/-! ## The cipher -/

abbrev Nonce := Vector UInt8 12

/-- An ideal `cipher.AEAD` under one key: a ciphertext opens under the nonce
that it was sealed with, and under no other. -/
structure AEAD where
  Seal : Nonce → List UInt8 → List UInt8
  Open : Nonce → List UInt8 → Option (List UInt8)
  length_Seal : ∀ nonce p, (Seal nonce p).length = p.length + 16
  Open_eq_some : ∀ nonce c p, Open nonce c = some p ↔ c = Seal nonce p
  nonce_of_Seal : ∀ nonce nonce' p p', Seal nonce p = Seal nonce' p' → nonce = nonce'

/-- Four zero bytes and the counter. -/
def nonceOf (n : UInt64) : Nonce := ⟨(List.replicate 4 0 ++ le64 n).toArray, by simp⟩

theorem nonceOf_inj {n m : UInt64} (h : nonceOf n = nonceOf m) : n = m := by
  have hbytes : le64 n = le64 m := by
    have hlist := congrArg (fun v : Nonce => v.toArray.toList) h
    exact append_cancel_left hlist
  rw [← uint64_le64 n, hbytes, uint64_le64]

/-- `CipherState.Encrypt`, with the counter after it. -/
def encrypt (a : AEAD) (n : UInt64) (plaintext : List UInt8) : List UInt8 × UInt64 :=
  (a.Seal (nonceOf n) plaintext, n + 1)

/-- `CipherState.Decrypt`, with the counter after it. -/
def decrypt (a : AEAD) (n : UInt64) (ciphertext : List UInt8) : Option (List UInt8) × UInt64 :=
  (a.Open (nonceOf n) ciphertext, n + 1)

/-! ## The connection -/

def maxNoiseFrame : Nat := 65535

/-- The writer's `send.n`, the bytes under way, and the reader's `recv.n` and
`readbuf`. -/
structure Conn where
  send : UInt64
  wire : List UInt8
  recv : UInt64
  readbuf : List UInt8
  deriving DecidableEq, Repr

inductive Call where
  /-- The writer calls `Write`. -/
  | write (p : List UInt8)
  /-- The reader calls `Read` with a buffer of the given size. -/
  | read (size : Nat)
  deriving DecidableEq, Repr

inductive Event where
  /-- `Write` returned without an error. -/
  | wrote (p : List UInt8)
  /-- `noise: message too large` -/
  | tooLarge (p : List UInt8)
  /-- `Read` returned these bytes. -/
  | returned (bs : List UInt8)
  /-- `noise: decrypt failed` -/
  | decryptFailed
  deriving DecidableEq, Repr

/-- The length of a ciphertext in two bytes, and the ciphertext. -/
def frame (ct : List UInt8) : List UInt8 := le16 (UInt16.ofNat ct.length) ++ ct

def Conn.write (a : AEAD) (s : Conn) (p : List UInt8) : Conn × List Event :=
  let (ct, n) := encrypt a s.send p
  if ct.length > maxNoiseFrame then ({ s with send := n }, [.tooLarge p])
  else ({ s with send := n, wire := s.wire ++ frame ct }, [.wrote p])

/-- The end of `Read`: copy what fits. -/
def Conn.copyOut (s : Conn) (size : Nat) : Conn × List Event :=
  ({ s with readbuf := s.readbuf.drop size }, [.returned (s.readbuf.take size)])

def Conn.read (a : AEAD) (s : Conn) (size : Nat) : Conn × List Event :=
  if s.readbuf = [] then
    let ctLen := (uint16 (s.wire.take 2)).toNat
    -- `io.ReadFull` waits for the length and for the ciphertext.
    if s.wire.length < 2 ∨ s.wire.length < 2 + ctLen then (s, [])
    else
      let ct := (s.wire.drop 2).take ctLen
      let s := { s with wire := s.wire.drop (2 + ctLen) }
      match decrypt a s.recv ct with
      | (none, n) => ({ s with recv := n }, [.decryptFailed])
      | (some pt, n) => Conn.copyOut { s with recv := n, readbuf := pt } size
  else s.copyOut size

/-- Both ends; the calls may come in any order. -/
def transport (a : AEAD) : Machine Conn Call Event where
  step s
    | .write p => s.write a p
    | .read size => s.read a size

def Conn.init : Conn := { send := 0, wire := [], recv := 0, readbuf := [] }

/-! ## What is to be delivered -/

def Event.wroteBytes : Event → List UInt8
  | .wrote p => p
  | _ => []

def Event.returnedBytes : Event → List UInt8
  | .returned bs => bs
  | _ => []

/-- The payloads of the successful writes. -/
def sent (events : List Event) : List UInt8 := events.flatMap Event.wroteBytes

/-- The bytes that the reads returned. -/
def received (events : List Event) : List UInt8 := events.flatMap Event.returnedBytes

/-- The transport delivers what is written. -/
structure Delivers (a : AEAD) (calls : List Call) : Prop where
  opens : .decryptFailed ∉ (transport a).outputs Conn.init calls
  inOrder : received ((transport a).outputs Conn.init calls) <+:
    sent ((transport a).outputs Conn.init calls)
  /-- Enough further reads with a buffer that is not empty return the rest. -/
  complete : ∃ enough, ∀ sizes : List Nat, enough ≤ sizes.length → (∀ size ∈ sizes, 0 < size) →
    .decryptFailed ∉ (transport a).outputs Conn.init (calls ++ sizes.map .read) ∧
    received ((transport a).outputs Conn.init (calls ++ sizes.map .read)) =
      sent ((transport a).outputs Conn.init calls)

/-- The payload fits into a frame. -/
def Call.Fits : Call → Prop
  | .write p => p.length + 16 ≤ maxNoiseFrame
  | .read _ => False

/-- The payload is rejected. -/
def Call.Rejected : Call → Prop
  | .write p => maxNoiseFrame < p.length + 16
  | .read _ => False

/-- No write succeeds behind a rejected one. -/
def NoneBehindRejected (calls : List Call) : Prop :=
  calls.Pairwise fun c d => c.Rejected → ¬ d.Fits

/-! ## The frames written -/

/-- The number of calls of `Write`. -/
def writes : List Call → Nat
  | [] => 0
  | .write _ :: calls => writes calls + 1
  | .read _ :: calls => writes calls

/-- The frames of the writes, with the count at each; `n` writes came before. -/
def written : Nat → List Call → List (Nat × List UInt8)
  | _, [] => []
  | n, .write p :: calls =>
      if p.length + 16 ≤ maxNoiseFrame then (n, p) :: written (n + 1) calls
      else written (n + 1) calls
  | n, .read _ :: calls => written n calls

theorem writes_append (calls more : List Call) :
    writes (calls ++ more) = writes calls + writes more := by
  induction calls with
  | nil => simp [writes]
  | cons c calls ih =>
    cases c with
    | write p =>
      rw [cons_append, writes, writes, ih]
      omega
    | read size => exact ih

theorem written_append (n : Nat) (calls more : List Call) :
    written n (calls ++ more) = written n calls ++ written (n + writes calls) more := by
  induction calls generalizing n with
  | nil => rfl
  | cons c calls ih =>
    cases c with
    | write p =>
      have hcount : n + 1 + writes calls = n + writes (.write p :: calls) := by
        rw [writes]
        omega
      rw [cons_append, written, written, ih, hcount]
      split
      · rfl
      · rfl
    | read size => exact ih n

theorem writes_reads (sizes : List Nat) : writes (sizes.map .read) = 0 := by
  induction sizes with
  | nil => rfl
  | cons size sizes ih => exact ih

theorem written_reads (n : Nat) (sizes : List Nat) : written n (sizes.map .read) = [] := by
  induction sizes with
  | nil => rfl
  | cons size sizes ih => exact ih

/-- The counts lie between those before and behind. -/
theorem count_of_mem_written {n : Nat} {calls : List Call} {f : Nat × List UInt8}
    (h : f ∈ written n calls) :
    n ≤ f.1 ∧ f.1 < n + writes calls ∧ f.2.length + 16 ≤ maxNoiseFrame := by
  induction calls generalizing n with
  | nil => cases h
  | cons c calls ih =>
    cases c with
    | read size => exact ih h
    | write p =>
      rw [writes]
      rw [written] at h
      split at h
      · rename_i hfits
        obtain rfl | h := mem_cons.mp h
        · exact ⟨le_rfl, by dsimp only; omega, hfits⟩
        · obtain ⟨hge, hlt, hlen⟩ := ih h
          exact ⟨by omega, by omega, hlen⟩
      · obtain ⟨hge, hlt, hlen⟩ := ih h
        exact ⟨by omega, by omega, hlen⟩

theorem length_written_le (n : Nat) (calls : List Call) :
    (written n calls).length ≤ writes calls := by
  induction calls generalizing n with
  | nil => exact le_rfl
  | cons c calls ih =>
    cases c with
    | read size => exact ih n
    | write p =>
      have hle := ih (n + 1)
      rw [written, writes]
      split
      · rw [length_cons]
        omega
      · omega

theorem written_eq_nil {n : Nat} {calls : List Call} :
    written n calls = [] ↔ ∀ c ∈ calls, ¬ c.Fits := by
  induction calls generalizing n with
  | nil => simp [written]
  | cons c calls ih =>
    rw [forall_mem_cons]
    cases c with
    | read size =>
      rw [written, ih]
      exact (and_iff_right id).symm
    | write p =>
      rw [written]
      split
      · rename_i hfits
        constructor
        · intro h
          cases h
        · intro h
          exact absurd hfits h.1
      · rename_i hfits
        rw [ih]
        exact (and_iff_right hfits).symm

/-- The frames are numbered without a gap exactly if none is behind a
rejected write. -/
theorem noneBehindRejected_iff (n : Nat) (calls : List Call) : NoneBehindRejected calls ↔
      (written n calls).map Prod.fst = range' n (written n calls).length := by
  unfold NoneBehindRejected
  induction calls generalizing n with
  | nil => simp [written]
  | cons c calls ih =>
    rw [pairwise_cons]
    cases c with
    | read size =>
      rw [written, ← ih]
      exact and_iff_right fun d _ h => h.elim
    | write p =>
      rw [written]
      by_cases hfits : p.length + 16 ≤ maxNoiseFrame
      · rw [if_pos hfits, map_cons, length_cons, range'_succ, cons.injEq,
          ← ih (n + 1), and_iff_right rfl]
        exact and_iff_right fun d _ h => absurd hfits (Nat.not_le.mpr h)
      · rw [if_neg hfits]
        have hrejected : (Call.write p).Rejected := Nat.not_le.mp hfits
        constructor
        · intro h
          have hnil : written (n + 1) calls = [] :=
            written_eq_nil.mpr fun d hd => h.1 d hd hrejected
          rw [hnil]
          rfl
        · intro h
          -- A first frame would have the count `n`, but all are behind it.
          have hnil : written (n + 1) calls = [] := by
            cases hw : written (n + 1) calls with
            | nil => rfl
            | cons f fs =>
              rw [hw, map_cons, length_cons, range'_succ] at h
              have hmem : f ∈ written (n + 1) calls := by rw [hw]; exact mem_cons_self
              have hge := (count_of_mem_written hmem).1
              have heq := (cons.inj h).1
              omega
          have hnone := written_eq_nil.mp hnil
          refine ⟨fun d hd _ => hnone d hd, (ih (n + 1)).mpr ?_⟩
          rw [hnil]
          rfl

/-! ## One call -/

variable {a : AEAD}

/-- A frame as it is written. -/
def sealedFrame (a : AEAD) (f : Nat × List UInt8) : List UInt8 :=
  frame (a.Seal (nonceOf (UInt64.ofNat f.1)) f.2)

theorem sealedFrame_ne_nil (f : Nat × List UInt8) : sealedFrame a f ≠ [] := by
  intro h
  have hlen := congrArg length h
  simp [sealedFrame, frame] at hlen

theorem ofNat_inj {m n : Nat} (hm : m < 2 ^ 64) (hn : n < 2 ^ 64)
    (h : ofNat m = ofNat n) : m = n := by
  have hnat := congrArg UInt64.toNat h
  rwa [toNat_ofNat_of_lt' hm, toNat_ofNat_of_lt' hn] at hnat

/-- A frame opens exactly if the reader has the count of the writer. -/
theorem Open_sealed {f : Nat × List UInt8} {k : Nat} (hf : f.1 < 2 ^ 64) (hk : k < 2 ^ 64) :
    a.Open (nonceOf (ofNat k)) (a.Seal (nonceOf (ofNat f.1)) f.2) =
      if f.1 = k then some f.2 else none := by
  by_cases heq : f.1 = k
  · rw [if_pos heq, heq]
    exact (a.Open_eq_some _ _ _).mpr rfl
  · rw [if_neg heq]
    cases hopen : a.Open (nonceOf (ofNat k))
        (a.Seal (nonceOf (ofNat f.1)) f.2) with
    | none => rfl
    | some p =>
      have hseal := (a.Open_eq_some _ _ _).mp hopen
      have hnonce := nonceOf_inj (a.nonce_of_Seal _ _ _ _ hseal)
      exact absurd (ofNat_inj hf hk hnonce) heq

theorem write_fits (s : Conn) {p : List UInt8} (h : p.length + 16 ≤ maxNoiseFrame) :
    s.write a p = ({ s with send := s.send + 1, wire := s.wire ++ frame (a.Seal (nonceOf s.send) p) },
      [.wrote p]) := by
  show (if (a.Seal (nonceOf s.send) p).length > maxNoiseFrame then _ else _) = _
  rw [a.length_Seal, if_neg (Nat.not_lt.mpr h)]

theorem write_rejected (s : Conn) {p : List UInt8} (h : ¬ p.length + 16 ≤ maxNoiseFrame) :
    s.write a p = ({ s with send := s.send + 1 }, [.tooLarge p]) := by
  show (if (a.Seal (nonceOf s.send) p).length > maxNoiseFrame then _ else _) = _
  rw [a.length_Seal, if_pos (Nat.not_le.mp h)]

theorem read_buffered {s : Conn} (h : s.readbuf ≠ []) (size : Nat) :
    s.read a size = s.copyOut size := if_neg h

theorem read_nothing {s : Conn} (h : s.readbuf = []) (hw : s.wire = []) (size : Nat) :
    s.read a size = (s, []) := by
  rw [Conn.read, if_pos h]
  exact if_pos (.inl (by rw [hw]; decide))

/-- A whole frame is on the wire. -/
theorem read_frame {s : Conn} (h : s.readbuf = []) {ct rest : List UInt8}
    (hlen : ct.length ≤ maxNoiseFrame) (hw : s.wire = frame ct ++ rest) (size : Nat) :
    s.read a size =
      match a.Open (nonceOf s.recv) ct with
      | none => ({ s with wire := rest, recv := s.recv + 1 }, [.decryptFailed])
      | some pt => Conn.copyOut { s with wire := rest, recv := s.recv + 1, readbuf := pt } size := by
  have htwo := length_le16 (UInt16.ofNat ct.length)
  have hnat : (UInt16.ofNat ct.length).toNat = ct.length :=
    UInt16.toNat_ofNat_of_lt' (Nat.lt_of_le_of_lt hlen (by decide))
  have hsize : (uint16 (s.wire.take 2)).toNat = ct.length := by
    rw [hw, frame, append_assoc, take_left' htwo, uint16_le16, hnat]
  have hct : (s.wire.drop 2).take ct.length = ct := by
    rw [hw, frame, append_assoc, drop_left' htwo, take_left]
  have hrest : s.wire.drop (2 + ct.length) = rest := by
    rw [hw, drop_left' (by rw [frame, length_append, htwo])]
  have hready : ¬ (s.wire.length < 2 ∨ s.wire.length < 2 + ct.length) := by
    rw [hw, frame, length_append, length_append, htwo]
    omega
  rw [Conn.read, if_pos h]
  dsimp only
  rw [hsize, if_neg hready, hct, hrest]
  show (match (a.Open (nonceOf s.recv) ct, s.recv + 1) with | (none, n) => _ | (some pt, n) => _) = _
  cases a.Open (nonceOf s.recv) ct with
  | none => rfl
  | some pt => rfl

/-! ## Every run -/

/-- After `calls` with these events, `k` frames have been taken off the wire. -/
structure Inv (a : AEAD) (calls : List Call) (events : List Event) (s : Conn) (k : Nat) :
    Prop where
  le : k ≤ (written 0 calls).length
  send : s.send = UInt64.ofNat (writes calls)
  recv : s.recv = UInt64.ofNat k
  wire : s.wire = ((written 0 calls).drop k).flatMap (sealedFrame a)
  sent : sent events = ((written 0 calls).map Prod.snd).flatten
  /-- The reader fails at the first frame whose count is not the reader's. -/
  opens : .decryptFailed ∉ events ↔ ((written 0 calls).take k).map Prod.fst = List.range k
  received : .decryptFailed ∉ events →
    received events ++ s.readbuf = (((written 0 calls).take k).map Prod.snd).flatten

theorem inv_init : Inv a [] [] Conn.init 0 where
  le := le_rfl
  send := rfl
  recv := rfl
  wire := rfl
  sent := rfl
  opens := by simp [written]
  received _ := rfl

theorem ofNat_succ (n : Nat) : ofNat n + 1 = ofNat (n + 1) := by
  rw [ofNat_add]
  rfl

theorem sent_append (evs evs' : List Event) : sent (evs ++ evs') = sent evs ++ sent evs' :=
  flatMap_append

theorem received_append (evs evs' : List Event) :
    received (evs ++ evs') = received evs ++ received evs' := flatMap_append

section

variable {calls : List Call} {events : List Event} {s : Conn} {k : Nat}

theorem Inv.write (h : Inv a calls events s k) (p : List UInt8) :
    Inv a (calls ++ [.write p]) (events ++ (s.write a p).2) (s.write a p).1 k := by
  have hwrites : writes (calls ++ [.write p]) = writes calls + 1 := writes_append _ _
  have hle := h.le
  by_cases hfits : p.length + 16 ≤ maxNoiseFrame
  · have hwritten : written 0 (calls ++ [.write p]) = written 0 calls ++ [(writes calls, p)] := by
      rw [written_append, zero_add, written, if_pos hfits]
      rfl
    have htake : (written 0 (calls ++ [.write p])).take k = (written 0 calls).take k := by
      rw [hwritten, take_append_of_le_length hle]
    have hmem : .decryptFailed ∉ events ++ [.wrote p] ↔ .decryptFailed ∉ events := by simp
    rw [write_fits s hfits]
    constructor
    · rw [hwritten, length_append]
      omega
    · show s.send + 1 = _
      rw [h.send, ofNat_succ, hwrites]
    · exact h.recv
    · show s.wire ++ frame (a.Seal (nonceOf s.send) p) = _
      rw [hwritten, drop_append_of_le_length hle, flatMap_append, h.wire, h.send]
      simp [sealedFrame]
    · rw [hwritten, sent_append, h.sent, map_append, flatten_append]
      simp [Noise.sent, Event.wroteBytes]
    · rw [hmem, htake]
      exact h.opens
    · intro hno
      rw [htake, ← h.received (hmem.mp hno), received_append]
      simp [Noise.received, Event.returnedBytes]
  · have hwritten : written 0 (calls ++ [.write p]) = written 0 calls := by
      rw [written_append, written, if_neg hfits]
      exact append_nil _
    have hmem : .decryptFailed ∉ events ++ [.tooLarge p] ↔ .decryptFailed ∉ events := by simp
    rw [write_rejected s hfits]
    constructor
    · rw [hwritten]
      exact hle
    · show s.send + 1 = _
      rw [h.send, ofNat_succ, hwrites]
    · exact h.recv
    · rw [hwritten]
      exact h.wire
    · rw [hwritten, sent_append, h.sent]
      simp [Noise.sent, Event.wroteBytes]
    · rw [hmem, hwritten]
      exact h.opens
    · intro hno
      rw [hwritten, ← h.received (hmem.mp hno), received_append]
      simp [Noise.received, Event.returnedBytes]

theorem written_read (calls : List Call) (size : Nat) :
    written 0 (calls ++ [.read size]) = written 0 calls := by
  rw [written_append]
  exact append_nil _

/-- A read that puts nothing out and leaves the state alone. -/
theorem Inv.wait (h : Inv a calls events s k) (size : Nat) :
    Inv a (calls ++ [.read size]) events s k where
  le := (written_read calls size).symm ▸ h.le
  send := h.send.trans (congrArg ofNat (writes_append calls [.read size]).symm)
  recv := h.recv
  wire := (written_read calls size).symm ▸ h.wire
  sent := (written_read calls size).symm ▸ h.sent
  opens := (written_read calls size).symm ▸ h.opens
  received := (written_read calls size).symm ▸ h.received

/-- What is copied out moves from the buffer to the bytes returned. -/
theorem Inv.copyOut (h : Inv a calls events s k) (size : Nat) :
    Inv a calls (events ++ (s.copyOut size).2) (s.copyOut size).1 k := by
  have hmem : .decryptFailed ∉ events ++ (s.copyOut size).2 ↔ .decryptFailed ∉ events := by
    simp [Conn.copyOut]
  refine ⟨h.le, h.send, h.recv, h.wire, ?_, hmem.trans h.opens, ?_⟩
  · rw [sent_append, h.sent]
    simp [Conn.copyOut, Noise.sent, Event.wroteBytes]
  · intro hno
    rw [← h.received (hmem.mp hno), received_append]
    simp [Conn.copyOut, Noise.received, Event.returnedBytes]

/-- The next frame on the wire. -/
theorem next_frame {fs : List (Nat × List UInt8)} {f : Nat × List UInt8}
    {W : List (Nat × List UInt8)} (h : W.drop k = f :: fs) :
    k + 1 ≤ W.length ∧ W.take (k + 1) = W.take k ++ [f] ∧ W.drop (k + 1) = fs := by
  have hlt : k < W.length := by
    by_contra hge
    rw [drop_eq_nil_of_le (Nat.not_lt.mp hge)] at h
    cases h
  have hget : W[k]? = some f := by
    rw [← head?_drop, h]
    rfl
  refine ⟨hlt, ?_, ?_⟩
  · rw [take_add_one, hget]
    rfl
  · rw [← drop_drop, h]
    rfl

section

variable (h : Inv a calls events s k)

include h

/-- A frame with the reader's count goes to the buffer. -/
theorem Inv.opened (hbuf : s.readbuf = []) {f : Nat × List UInt8} {fs : List (Nat × List UInt8)}
    (hnext : (written 0 calls).drop k = f :: fs) (hf : f.1 = k) :
    Inv a calls events
      { s with wire := fs.flatMap (sealedFrame a), recv := s.recv + 1, readbuf := f.2 }
      (k + 1) := by
  obtain ⟨hlt, htake, hdrop⟩ := next_frame hnext
  refine ⟨hlt, h.send, ?_, ?_, h.sent, ?_, ?_⟩
  · show s.recv + 1 = _
    rw [h.recv, ofNat_succ]
  · rw [hdrop]
  · rw [htake, map_append, range_succ, h.opens]
    show _ ↔ _ ++ [f.1] = _
    rw [append_singleton_inj, and_iff_left hf]
  · intro hno
    rw [htake, map_append, flatten_append, ← h.received hno, hbuf]
    simp

/-- Any other frame is lost. -/
theorem Inv.failed {f : Nat × List UInt8} {fs : List (Nat × List UInt8)}
    (hnext : (written 0 calls).drop k = f :: fs) (hf : f.1 ≠ k) :
    Inv a calls (events ++ [.decryptFailed])
      { s with wire := fs.flatMap (sealedFrame a), recv := s.recv + 1 } (k + 1) := by
  obtain ⟨hlt, htake, hdrop⟩ := next_frame hnext
  refine ⟨hlt, h.send, ?_, ?_, ?_, ?_, ?_⟩
  · show s.recv + 1 = _
    rw [h.recv, ofNat_succ]
  · rw [hdrop]
  · rw [sent_append, h.sent]
    simp [Noise.sent, Event.wroteBytes]
  · rw [htake, map_append, range_succ]
    show _ ↔ _ ++ [f.1] = _
    rw [append_singleton_inj]
    simp [hf]
  · intro hno
    exact absurd (by simp) hno

/-- What a `Read` does: it waits, it empties the buffer, or it takes a frame. -/
theorem Inv.read_cases (hcount : writes calls < 2 ^ 64) (size : Nat) :
    (s.readbuf = [] ∧ s.wire = [] ∧ s.read a size = (s, [])) ∨
    (s.readbuf ≠ [] ∧ s.read a size = s.copyOut size) ∨
    ∃ f fs, s.readbuf = [] ∧ (written 0 calls).drop k = f :: fs ∧
      s.wire = sealedFrame a f ++ fs.flatMap (sealedFrame a) ∧
      s.read a size =
        if f.1 = k then
          Conn.copyOut { s with wire := fs.flatMap (sealedFrame a), recv := s.recv + 1,
                                readbuf := f.2 } size
        else ({ s with wire := fs.flatMap (sealedFrame a), recv := s.recv + 1 },
          [.decryptFailed]) := by
  by_cases hbuf : s.readbuf = []
  · cases hnext : (written 0 calls).drop k with
    | nil =>
      have hwire : s.wire = [] := by rw [h.wire, hnext]; rfl
      exact .inl ⟨hbuf, hwire, read_nothing hbuf hwire size⟩
    | cons f fs =>
      have hmem : f ∈ written 0 calls := mem_of_mem_drop (hnext ▸ mem_cons_self)
      obtain ⟨-, hlt, hlen⟩ := count_of_mem_written hmem
      have hwire : s.wire = sealedFrame a f ++ fs.flatMap (sealedFrame a) := by
        rw [h.wire, hnext, flatMap_cons]
      have hk : k < 2 ^ 64 := by
        have hle := length_written_le 0 calls
        have hnext := (next_frame hnext).1
        omega
      refine .inr (.inr ⟨f, fs, hbuf, rfl, hwire, ?_⟩)
      rw [read_frame hbuf (by rw [a.length_Seal]; exact hlen) hwire, h.recv,
        Open_sealed (by omega) hk]
      by_cases hf : f.1 = k
      · rw [if_pos hf, if_pos hf]
      · rw [if_neg hf, if_neg hf]
  · exact .inr (.inl ⟨hbuf, read_buffered hbuf size⟩)

theorem Inv.read (hcount : writes calls < 2 ^ 64) (size : Nat) :
    ∃ k', Inv a (calls ++ [.read size]) (events ++ (s.read a size).2) (s.read a size).1 k' := by
  obtain ⟨-, -, hread⟩ | ⟨-, hread⟩ | ⟨f, fs, hbuf, hnext, -, hread⟩ := h.read_cases hcount size
  · rw [hread, append_nil]
    exact ⟨k, h.wait size⟩
  · rw [hread]
    exact ⟨k, (h.copyOut size).wait size⟩
  · rw [hread]
    by_cases hf : f.1 = k
    · rw [if_pos hf]
      exact ⟨k + 1, ((h.opened hbuf hnext hf).copyOut size).wait size⟩
    · rw [if_neg hf]
      exact ⟨k + 1, (h.failed hnext hf).wait size⟩

end

end

/-- The invariant holds after every sequence of calls. -/
theorem exists_inv (a : AEAD) (calls : List Call) (hcount : writes calls < 2 ^ 64) :
    ∃ k, Inv a calls ((transport a).outputs Conn.init calls)
      ((transport a).run Conn.init calls) k := by
  refine (transport a).run_history (P := fun calls events s => writes calls < 2 ^ 64 →
    ∃ k, Inv a calls events s k) (Q := fun _ => True) ?_ ?_ calls (fun _ _ => trivial) hcount
  · intro _
    exact ⟨0, inv_init⟩
  · intro calls events s call _ ih hcount
    rw [writes_append] at hcount
    obtain ⟨k, hk⟩ := ih (by omega)
    cases call with
    | write p => exact ⟨k, hk.write p⟩
    | read size => exact hk.read (by omega) size

/-! ## The reader gets to the end -/

/-- Bytes under way or in the buffer. -/
def Conn.pending (s : Conn) : Nat := s.wire.length + s.readbuf.length

theorem pending_copyOut (s : Conn) (size : Nat) :
    (s.copyOut size).1.pending = s.wire.length + (s.readbuf.length - size) := by
  rw [Conn.pending, Conn.copyOut, length_drop]

/-- A read with a buffer that is not empty makes progress. -/
theorem Inv.pending_read {calls : List Call} {events : List Event} {s : Conn} {k : Nat}
    (h : Inv a calls events s k) (hcount : writes calls < 2 ^ 64) {size : Nat}
    (hsize : 0 < size) : (s.read a size).1.pending ≤ s.pending - 1 := by
  obtain ⟨hbuf, hwire, hread⟩ | ⟨hbuf, hread⟩ | ⟨f, fs, hbuf, -, hwire, hread⟩ :=
    h.read_cases hcount size
  · rw [hread, Conn.pending, hbuf, hwire]
    exact le_rfl
  · have hpos : 0 < s.readbuf.length := length_pos_iff.mpr hbuf
    rw [hread, pending_copyOut, Conn.pending]
    omega
  · have hlen : (sealedFrame a f).length = f.2.length + 18 := by
      rw [sealedFrame, frame, length_append, length_le16, a.length_Seal]
      omega
    have hpending : s.pending = f.2.length + 18 + (fs.flatMap (sealedFrame a)).length := by
      rw [Conn.pending, hwire, hbuf, length_append, hlen]
      rfl
    rw [hread, hpending]
    split
    · rw [pending_copyOut]
      dsimp only
      omega
    · rw [Conn.pending, hbuf, length_nil]
      dsimp only
      omega

theorem run_snoc (calls : List Call) (c : Call) :
    (transport a).run Conn.init (calls ++ [c]) =
      ((transport a).step ((transport a).run Conn.init calls) c).1 :=
  (transport a).run_append _ _ _

/-- As many reads as there are bytes are enough. -/
theorem drained {calls : List Call} (hcount : writes calls < 2 ^ 64) {sizes : List Nat}
    (hpos : ∀ size ∈ sizes, 0 < size)
    (henough : ((transport a).run Conn.init calls).pending ≤ sizes.length) :
    ((transport a).run Conn.init (calls ++ sizes.map .read)).pending = 0 := by
  induction sizes generalizing calls with
  | nil =>
    rw [map_nil, append_nil]
    exact Nat.le_zero.mp henough
  | cons size sizes ih =>
    obtain ⟨k, hinv⟩ := exists_inv a calls hcount
    have hstep := hinv.pending_read hcount (hpos size mem_cons_self)
    have hcount' : writes (calls ++ [.read size]) < 2 ^ 64 := by
      rw [writes_append]
      exact hcount
    have hrest : ((transport a).run Conn.init (calls ++ [.read size])).pending ≤ sizes.length := by
      rw [run_snoc]
      show (Conn.read a _ size).1.pending ≤ _
      rw [length_cons] at henough
      omega
    rw [map_cons, append_cons]
    exact ih hcount' (fun z hz => hpos z (mem_cons_of_mem _ hz)) hrest

/-- Once nothing is pending, all frames have been taken. -/
theorem Inv.all_taken {calls : List Call} {events : List Event} {s : Conn} {k : Nat}
    (h : Inv a calls events s k) (hdone : s.pending = 0) :
    s.readbuf = [] ∧ (written 0 calls).take k = written 0 calls ∧ k = (written 0 calls).length := by
  unfold Conn.pending at hdone
  have hwire : s.wire = [] := length_eq_zero_iff.mp (by omega)
  have hbuf : s.readbuf = [] := length_eq_zero_iff.mp (by omega)
  have hnone : (written 0 calls).drop k = [] := by
    cases hnext : (written 0 calls).drop k with
    | nil => rfl
    | cons f fs =>
      have hframes := h.wire
      rw [hwire, hnext, flatMap_cons, eq_comm, append_eq_nil_iff] at hframes
      exact absurd hframes.1 (sealedFrame_ne_nil f)
  have hge := drop_eq_nil_iff.mp hnone
  exact ⟨hbuf, take_of_length_le hge, le_antisymm h.le hge⟩

/-! ## When everything is delivered -/

theorem written_calls_reads (calls : List Call) (sizes : List Nat) :
    written 0 (calls ++ sizes.map .read) = written 0 calls := by
  rw [written_append, written_reads, append_nil]

theorem writes_calls_reads (calls : List Call) (sizes : List Nat) :
    writes (calls ++ sizes.map .read) = writes calls := by
  rw [writes_append, writes_reads, add_zero]

/-- Without a gap in the counts everything is delivered. -/
theorem delivers_of_counts {calls : List Call} (hcount : writes calls < 2 ^ 64)
    (hgapless : (written 0 calls).map Prod.fst = range (written 0 calls).length) :
    Delivers a calls := by
  obtain ⟨k, hinv⟩ := exists_inv a calls hcount
  have htake : ∀ j, j ≤ (written 0 calls).length →
      ((written 0 calls).take j).map Prod.fst = range j := by
    intro j hj
    rw [map_take, hgapless, take_range, Nat.min_eq_left hj]
  have hopens := hinv.opens.mpr (htake k hinv.le)
  refine ⟨hopens, ?_, ((transport a).run Conn.init calls).pending, ?_⟩
  · rw [hinv.sent]
    have hgot := hinv.received hopens
    refine ⟨((transport a).run Conn.init calls).readbuf ++
      (((written 0 calls).drop k).map Prod.snd).flatten, ?_⟩
    rw [← append_assoc, hgot, ← flatten_append, ← map_append, take_append_drop]
  · intro sizes henough hpos
    have hcount' : writes (calls ++ sizes.map .read) < 2 ^ 64 := by
      rw [writes_calls_reads]
      exact hcount
    obtain ⟨k', hinv'⟩ := exists_inv a _ hcount'
    obtain ⟨hbuf, hall, hk'⟩ := hinv'.all_taken (drained hcount hpos henough)
    rw [written_calls_reads] at hall hk'
    have hopens' := hinv'.opens.mpr (by rw [written_calls_reads]; exact htake k' hk'.le)
    have hgot := hinv'.received hopens'
    rw [written_calls_reads, hall, hbuf, append_nil] at hgot
    exact ⟨hopens', hgot.trans hinv.sent.symm⟩

/-- If everything is delivered there is no gap. -/
theorem counts_of_delivers {calls : List Call} (hcount : writes calls < 2 ^ 64)
    (h : Delivers a calls) : (written 0 calls).map Prod.fst = range (written 0 calls).length := by
  obtain ⟨enough, hcomplete⟩ := h.complete
  -- Read until both the promise and the bytes are used up.
  have hlen : ∀ n, (replicate n 1).length = n := fun n => length_replicate
  have hpos : ∀ size ∈ replicate
      (enough + ((transport a).run Conn.init calls).pending) 1, 0 < size := by
    intro size hsize
    rw [eq_of_mem_replicate hsize]
    exact one_pos
  obtain ⟨hopens, -⟩ := hcomplete _ (by rw [hlen]; omega) hpos
  have hdone := drained (a := a) hcount hpos (by rw [hlen]; omega)
  obtain ⟨k, hinv⟩ := exists_inv a
    (calls ++ (replicate (enough + ((transport a).run Conn.init calls).pending) 1).map .read)
    (by rw [writes_calls_reads]; exact hcount)
  obtain ⟨-, hall, hk⟩ := hinv.all_taken hdone
  have hcounts := hinv.opens.mp hopens
  rw [hall, written_calls_reads] at hcounts
  rw [hcounts, hk, written_calls_reads]

/-- With fewer than `2 ^ 64` writes, the transport delivers what is written
exactly if no write succeeds behind a rejected one. -/
theorem delivers_iff (a : AEAD) {calls : List Call} (hcount : writes calls < 2 ^ 64) :
    Delivers a calls ↔ NoneBehindRejected calls := by
  rw [noneBehindRejected_iff 0, ← List.range_eq_range']
  exact ⟨counts_of_delivers hcount, delivers_of_counts hcount⟩

/-- A cipher that writes the nonce in front. -/
def plainAEAD : AEAD where
  Seal nonce p := nonce.toList ++ (List.replicate 4 0 ++ p)
  Open nonce c := if nonce.toList ++ List.replicate 4 0 <+: c then some (c.drop 16) else none
  length_Seal nonce p := by simp; omega
  Open_eq_some nonce c p := by
    constructor
    · intro h
      split at h
      · rename_i hpre
        obtain ⟨t, rfl⟩ := hpre
        cases h
        rw [List.drop_left' (by simp), List.append_assoc]
      · cases h
    · rintro rfl
      rw [← List.append_assoc, if_pos (List.prefix_append _ _), List.drop_left' (by simp)]
  nonce_of_Seal nonce nonce' p p' h := by
    have hhead := (List.append_inj h (by simp)).1
    exact Vector.toList_inj.mp hhead

/-- One payload too large, then one byte. -/
def oversizedFirst : List Call := [.write (List.replicate 65520 0), .write [7], .read 1]

theorem oversizedFirst_fails : ¬ Delivers plainAEAD oversizedFirst := by
  intro h
  apply h.opens
  have hfirst : Conn.init.write plainAEAD (List.replicate 65520 0) =
      ({ Conn.init with send := 1 }, [.tooLarge (List.replicate 65520 0)]) :=
    write_rejected _ (by rw [List.length_replicate]; decide)
  show _ ∈ (Conn.init.write plainAEAD (List.replicate 65520 0)).2 ++
    (transport plainAEAD).outputs (Conn.init.write plainAEAD (List.replicate 65520 0)).1
      [.write [7], .read 1]
  rw [hfirst]
  apply List.mem_append_right
  decide +kernel

theorem delivers_sample : Delivers plainAEAD [.write [1, 2, 3], .read 2, .write [4], .read 2] :=
  (delivers_iff plainAEAD (by decide)).mpr (by simp [NoneBehindRejected, Call.Rejected, Call.Fits,
    maxNoiseFrame])

end Otedama.Stratum.Noise
