import Otedama.Framework.Reader
import Otedama.Framework.Utf8

/-! # Stratum V2 wire primitives

The append functions of the encoders, the readers of the decoders, and
the indexing and slicing of payloads. Every integer is little-endian. -/

namespace Otedama.Stratum

open Bytes Reader List

/-! ## Errors -/

inductive EncodeError where
  /-- `stratum: string too long (%d > 255 bytes)` -/
  | stringTooLong (len : Nat)
  /-- `stratum: byte slice too long for B0_32 (%d > 32)` -/
  | sliceTooLong (len : Nat)
  deriving DecidableEq, Repr

inductive DecodeError where
  /-- The error of `io.ReadFull` or `ReadByte`. -/
  | stream (e : StreamError)
  /-- `fmt.Errorf("text: %w", err)` -/
  | wrapped (text : String) (e : DecodeError)
  /-- `stratum: message: short payload (%d < %d)` -/
  | shortPayload (message : String) (len need : Nat)
  /-- `stratum: NewMiningJob: short payload for present ntime_start (%d)` -/
  | shortNtimeStart (len : Nat)
  /-- `stratum: NewMiningJob: invalid OPTION count %d for ntime_start` -/
  | invalidOption (count : UInt8)
  /-- An index or a slice beyond the end of the payload. -/
  | outOfRange
  deriving DecidableEq, Repr

/-- The error does not come from reading beyond the end of the payload. -/
def DecodeError.InRange : DecodeError → Prop
  | .wrapped _ e => e.InRange
  | .outOfRange => False
  | _ => True

/-! ## Appending -/

def appendU16LE (b : List UInt8) (v : UInt16) : List UInt8 := b ++ le16 v

def appendU32LE (b : List UInt8) (v : UInt32) : List UInt8 := b ++ le32 v

def appendStr0255 (b : List UInt8) (s : GoString) : Except EncodeError (List UInt8) :=
  if s.length > 255 then .error (.stringTooLong s.length)
  else .ok (b ++ [UInt8.ofNat s.length] ++ s)

def appendB032 (dst v : List UInt8) : Except EncodeError (List UInt8) :=
  if v.length > 32 then .error (.sliceTooLong v.length)
  else .ok (dst ++ [UInt8.ofNat v.length] ++ v)

/-- Bytes after their length. -/
def lenPrefixed (s : List UInt8) : List UInt8 := UInt8.ofNat s.length :: s

@[simp] theorem length_lenPrefixed (s : List UInt8) : (lenPrefixed s).length = s.length + 1 := rfl

theorem appendStr0255_eq_ok {b : List UInt8} {s : GoString} {bs : List UInt8} :
    appendStr0255 b s = .ok bs ↔ s.length ≤ 255 ∧ bs = b ++ lenPrefixed s := by
  unfold appendStr0255
  split
  · next h =>
    simp only [reduceCtorEq, false_iff, not_and]
    omega
  · next h =>
    have hlen : s.length ≤ 255 := by omega
    simp [lenPrefixed, hlen, eq_comm]

theorem appendB032_eq_ok {dst v bs : List UInt8} :
    appendB032 dst v = .ok bs ↔ v.length ≤ 32 ∧ bs = dst ++ lenPrefixed v := by
  unfold appendB032
  split
  · next h =>
    simp only [reduceCtorEq, false_iff, not_and]
    omega
  · next h =>
    have hlen : v.length ≤ 32 := by omega
    simp [lenPrefixed, hlen, eq_comm]

/-! ## Reading -/

def getU16LE : Reader DecodeError UInt16 := do
  let b ← (readFull 2).adaptExcept .stream
  pure (uint16 b)

def getU32LE : Reader DecodeError UInt32 := do
  let b ← (readFull 4).adaptExcept .stream
  pure (uint32 b)

/-- `io.ReadFull` into a `[32]byte`. -/
def getU256 : Reader DecodeError Bytes32 := do
  let b ← (readFull 32).adaptExcept .stream
  pure (copy32 b)

/-- A length byte and that many bytes, with the errors of the two reads
mapped by `lenErr` and `bytesErr`. -/
def getLenPrefixed (lenErr bytesErr : DecodeError → DecodeError) :
    Reader DecodeError (List UInt8) := do
  let lenBuf ← (readFull 1).adaptExcept fun e => lenErr (.stream e)
  let n := (lenBuf.headD 0).toNat
  if n = 0 then pure []
  else (readFull n).adaptExcept fun e => bytesErr (.stream e)

def getStr0255 : Reader DecodeError GoString :=
  getLenPrefixed (.wrapped "stratum: reading string length") (.wrapped "stratum: reading string bytes")

def getB0255 : Reader DecodeError (List UInt8) := getLenPrefixed id id

theorem getU16LE_exact : Exact getU16LE fun v bs => bs = le16 v :=
  readFull_fixed_exact u16LE _

theorem getU32LE_exact : Exact getU32LE fun v bs => bs = le32 v :=
  readFull_fixed_exact u32LE _

theorem getU256_exact : Exact getU256 fun v bs => bs = v.toList :=
  readFull_fixed_exact u256 _

theorem getLenPrefixed_exact (lenErr bytesErr : DecodeError → DecodeError) :
    Exact (getLenPrefixed lenErr bytesErr) fun s bs => s.length ≤ 255 ∧ bs = lenPrefixed s := by
  have htail : ∀ n : Nat, Exact (ε := DecodeError)
      (if n = 0 then pure [] else (readFull n).adaptExcept fun e => bytesErr (.stream e))
      fun s bs => s.length = n ∧ bs = s := by
    intro n
    by_cases hn : n = 0
    · rw [if_pos hn]
      refine (Exact.pure []).congr fun s bs => ?_
      simp only [hn, length_eq_zero_iff]
      constructor <;> rintro ⟨rfl, rfl⟩ <;> exact ⟨rfl, rfl⟩
    · rw [if_neg hn]
      exact (readFull_exact n).adaptExcept _
  refine (((readFull_exact 1).adaptExcept _).bind fun lenBuf => htail _).congr fun s bs => ?_
  constructor
  · rintro ⟨lenBuf, _, _, ⟨hone, rfl⟩, ⟨hlen, rfl⟩, rfl⟩
    obtain ⟨c, rfl⟩ := length_eq_one_iff.mp hone
    have hc := c.toNat_lt
    rw [headD_cons] at hlen
    exact ⟨by omega, by rw [lenPrefixed, hlen, UInt8.ofNat_toNat]; rfl⟩
  · rintro ⟨hlen, rfl⟩
    refine ⟨[UInt8.ofNat s.length], _, s, ⟨rfl, rfl⟩, ⟨?_, rfl⟩, rfl⟩
    rw [headD_cons, UInt8.toNat_ofNat']
    omega

theorem getStr0255_exact : Exact getStr0255 fun s bs => s.length ≤ 255 ∧ bs = lenPrefixed s :=
  getLenPrefixed_exact _ _

theorem getB0255_exact : Exact getB0255 fun s bs => s.length ≤ 255 ∧ bs = lenPrefixed s :=
  getLenPrefixed_exact _ _

/-! ## Slicing

The offset-based decoders index and slice the payload. Go would panic
beyond the end of the payload, or read on where the capacity of the slice
allows it; here either is `outOfRange`. -/

/-- `p[i:j]`. -/
def slice (p : List UInt8) (i j : Nat) : Except DecodeError (List UInt8) :=
  if i ≤ j ∧ j ≤ p.length then .ok ((p.drop i).take (j - i)) else .error .outOfRange

/-- `p[i]`. -/
def byteAt (p : List UInt8) (i : Nat) : Except DecodeError UInt8 :=
  match p[i]? with
  | some b => .ok b
  | none => .error .outOfRange

theorem slice_head {a t : List UInt8} {n : Nat} (h : a.length = n) :
    slice (a ++ t) 0 n = .ok a := by
  simp [slice, ← h]

theorem slice_all (p : List UInt8) : slice p 0 p.length = .ok p := by
  simp [slice]

theorem slice_skip {a t : List UInt8} {i j : Nat} (hi : a.length ≤ i) (hij : i ≤ j) :
    slice (a ++ t) i j = slice t (i - a.length) (j - a.length) := by
  have hsub : j - a.length - (i - a.length) = j - i := by omega
  have hcond : (i ≤ j ∧ j ≤ (a ++ t).length) ↔
      (i - a.length ≤ j - a.length ∧ j - a.length ≤ t.length) := by
    rw [length_append]
    omega
  unfold slice
  rw [hsub, drop_append, drop_of_length_le hi, nil_append]
  simp only [hcond]

theorem slice_cons (b : UInt8) (t : List UInt8) (i j : Nat) :
    slice (b :: t) (i + 1) (j + 1) = slice t i j := by
  simp [slice]

theorem byteAt_skip {a t : List UInt8} {i : Nat} (hi : a.length ≤ i) :
    byteAt (a ++ t) i = byteAt t (i - a.length) := by
  unfold byteAt
  rw [getElem?_append_right hi]

end Otedama.Stratum
