import Otedama.Framework.Bytes
import Mathlib.Data.Nat.Bitwise

/-! # The payout check

Whether a coinbase transaction has an output that pays to a script. The
code walks over the serialization with an offset that it lets run past
the end and tests at the next read.

The model keeps the offset, and counts the rounds of every loop; an index
out of range is a run-time panic, and no result. Offsets and lengths are
natural numbers: a Go slice is shorter than `2 ^ 63` bytes, and the offset
is never more than 40 bytes behind its end.

Over it stands a parser of the bytes that are left, without offsets. It
is what the serialization of a transaction is compared with. -/

namespace Otedama.Btccrypto

open Bytes List Nat Option

/-! ## The source -/

inductive CoinbaseError where
  /-- `btccrypto: coinbase too short (%d bytes)` -/
  | tooShort (len : Nat)
  /-- `btccrypto: bad coinbase input count` -/
  | inputCount
  /-- `btccrypto: bad scriptSig length` -/
  | scriptSigLength
  /-- `btccrypto: truncated coinbase inputs` -/
  | truncatedInputs
  /-- `btccrypto: bad coinbase output count` -/
  | outputCount
  /-- `btccrypto: bad output script length` -/
  | outputScriptLength
  /-- `btccrypto: varint out of range` -/
  | varint
  deriving DecidableEq, Repr

/-- The offset, and the rounds of loops so far. -/
structure Cursor where
  off : Nat
  iters : Nat
  deriving DecidableEq, Repr

/-- Code that moves the cursor, or panics. -/
abbrev Scan := StateT Cursor Option

def advance (n : Nat) : Scan Unit := modify fun c => { c with off := c.off + n }

/-- Count rounds of a loop. -/
def tick (n : Nat) : Scan Unit := modify fun c => { c with iters := c.iters + n }

/-- `b[i]` -/
def byteAt (b : List UInt8) (i : Nat) : Scan UInt8 := liftM b[i]?

/-- `b[i:j]` -/
def sliceAt (b : List UInt8) (i j : Nat) : Scan (List UInt8) :=
  liftM (if i ≤ j ∧ j ≤ b.length then some ((b.drop i).take (j - i)) else none)

/-- The `n` bytes at `start` as a number, least significant first. -/
def littleEndian (b : List UInt8) (start n : Nat) : Scan Nat :=
  (List.range n).foldlM (fun v i => do
    let x ← byteAt b (start + i)
    return v ||| x.toNat <<< (8 * i)) 0

/-- The three cases of `readCompactSize` with a number behind the first byte.
Only the longest has a loop. -/
def readWide (b : List UInt8) (off n rounds : Nat) : Scan (Except CoinbaseError Nat) :=
  if off + (n + 1) > b.length then return .error .varint
  else do
    tick rounds
    let v ← littleEndian b (off + 1) n
    advance (n + 1)
    return .ok v

def readCompactSize (b : List UInt8) : Scan (Except CoinbaseError Nat) := do
  let off := (← get).off
  if off ≥ b.length then return .error .varint
  else do
    let first ← byteAt b off
    if first = 0xfd then readWide b off 2 0
    else if first = 0xfe then readWide b off 4 0
    else if first = 0xff then readWide b off 8 8
    else do
      advance 1
      return .ok first.toNat

/-- `uint64(len(tx)-off)` -/
def remaining (tx : List UInt8) (off : Nat) : Nat :=
  if off ≤ tx.length then tx.length - off else 2 ^ 64 - (off - tx.length)

/-- The loop over the inputs. -/
def scanInputs (tx : List UInt8) : Nat → Scan (Except CoinbaseError Unit)
  | 0 => return .ok ()
  | n + 1 => do
      tick 1
      advance 36
      match ← readCompactSize tx with
      | .error _ => return .error .scriptSigLength
      | .ok sl =>
          if sl > remaining tx (← get).off then return .error .scriptSigLength
          else do
            advance (sl + 4)
            scanInputs tx n

/-- The loop over the outputs. -/
def scanOutputs (tx script : List UInt8) : Nat → Scan (Except CoinbaseError Bool)
  | 0 => return .ok false
  | n + 1 => do
      tick 1
      advance 8
      match ← readCompactSize tx with
      | .error _ => return .error .outputScriptLength
      | .ok pkLen => do
          let off := (← get).off
          if pkLen > remaining tx off then return .error .outputScriptLength
          else do
            let pk ← sliceAt tx off (off + pkLen)
            if pk = script then return .ok true
            else do
              advance pkLen
              scanOutputs tx script n

/-- The outputs, behind the inputs. -/
def scanVout (tx script : List UInt8) : Scan (Except CoinbaseError Bool) := do
  if (← get).off ≥ tx.length then return .error .truncatedInputs
  else do
    match ← readCompactSize tx with
    | .error _ => return .error .outputCount
    | .ok vout => scanOutputs tx script vout

/-- The inputs, and what follows them. -/
def scanVin (tx script : List UInt8) : Scan (Except CoinbaseError Bool) := do
  match ← readCompactSize tx with
  | .error _ => return .error .inputCount
  | .ok vin =>
      if vin = 0 then return .error .inputCount
      else do
        match ← scanInputs tx vin with
        | .error e => return .error e
        | .ok () => scanVout tx script

/-- `tx[off] == 0x00 && tx[off+1] == 0x01` -/
def readMarker (tx : List UInt8) (off : Nat) : Scan Bool := do
  let marker ← byteAt tx off
  -- The flag is only read behind a marker.
  if marker = 0x00 then do
    let flag ← byteAt tx (off + 1)
    return flag = 0x01
  else return false

def coinbasePaysScript (tx script : List UInt8) : Scan (Except CoinbaseError Bool) :=
  if tx.length < 10 then return .error (.tooShort tx.length)
  else do
    advance 4
    let segwit ← readMarker tx (← get).off
    advance (if segwit then 2 else 0)
    scanVin tx script

/-- A call starts at the front and has made no rounds. -/
def callCoinbasePaysScript (tx script : List UInt8) : Option (Except CoinbaseError Bool × Cursor) :=
  coinbasePaysScript tx script { off := 0, iters := 0 }

/-! ## The parser of the bytes left -/

/-- A number of `n` bytes, with the size of its encoding. -/
def wide (n : Nat) (rest : List UInt8) : Option (Nat × Nat) :=
  if n ≤ rest.length then some (leValue (rest.take n), n + 1) else none

/-- How many bytes follow the first. -/
def widthOf (first : UInt8) : Option Nat :=
  if first = 0xfd then some 2
  else if first = 0xfe then some 4
  else if first = 0xff then some 8
  else none

/-- The number in front, with the size of its encoding. -/
def compact : List UInt8 → Option (Nat × Nat)
  | [] => none
  | first :: rest =>
      match widthOf first with
      | none => some (first.toNat, 1)
      | some n => wide n rest

/-- What is left behind `n` inputs. -/
def skipInputs : Nat → List UInt8 → Option (List UInt8)
  | 0, rest => some rest
  | n + 1, rest =>
      match compact (rest.drop 36) with
      | none => none
      | some (sl, m) =>
          if sl > (rest.drop (36 + m)).length then none
          else skipInputs n (rest.drop (36 + m + (sl + 4)))

/-- Whether one of `n` outputs has the script, and what is left behind the
last one read. -/
def searchOutputs (script : List UInt8) : Nat → List UInt8 → Option (Bool × List UInt8)
  | 0, rest => some (false, rest)
  | n + 1, rest =>
      match compact (rest.drop 8) with
      | none => none
      | some (pkLen, m) =>
          if pkLen > (rest.drop (8 + m)).length then none
          else if (rest.drop (8 + m)).take pkLen = script then
            some (true, rest.drop (8 + m + pkLen))
          else searchOutputs script n (rest.drop (8 + m + pkLen))

def parseVout (script rest : List UInt8) : Option (Bool × List UInt8) :=
  if rest = [] then none
  else
    match compact rest with
    | none => none
    | some (vout, m) => searchOutputs script vout (rest.drop m)

def parseVin (script rest : List UInt8) : Option (Bool × List UInt8) :=
  match compact rest with
  | none => none
  | some (vin, m) =>
      if vin = 0 then none
      else
        match skipInputs vin (rest.drop m) with
        | none => none
        | some rest => parseVout script rest

/-- The size of version and marker. -/
def headSize (tx : List UInt8) : Nat := if tx[4]? = some 0 ∧ tx[5]? = some 1 then 6 else 4

def parsePays (script tx : List UInt8) : Option (Bool × List UInt8) :=
  if tx.length < 10 then none else parseVin script (tx.drop (headSize tx))

/-! ## Reading a number -/

@[simp] theorem scan_pure {α : Type} (a : α) (c : Cursor) : (pure a : Scan α) c = some (a, c) := rfl

theorem scan_bind {α β : Type} (x : Scan α) (f : α → Scan β) (c : Cursor) :
    (x >>= f) c = (x c).bind fun r => f r.1 r.2 := rfl

@[simp] theorem scan_get (c : Cursor) : (get : Scan Cursor) c = some (c, c) := rfl

@[simp] theorem scan_advance (n : Nat) (c : Cursor) :
    advance n c = some ((), { c with off := c.off + n }) := rfl

@[simp] theorem scan_tick (n : Nat) (c : Cursor) :
    tick n c = some ((), { c with iters := c.iters + n }) := rfl

theorem scan_byteAt {b : List UInt8} {i : Nat} {x : UInt8} (h : b[i]? = some x) (c : Cursor) :
    byteAt b i c = some (x, c) := by
  show (b[i]?).bind (fun x => some (x, c)) = _
  rw [h]
  rfl

theorem scan_sliceAt {b : List UInt8} {i j : Nat} (h : i ≤ j ∧ j ≤ b.length) (c : Cursor) :
    sliceAt b i j c = some ((b.drop i).take (j - i), c) := by
  show (if i ≤ j ∧ j ≤ b.length then some ((b.drop i).take (j - i)) else none).bind
    (fun x => some (x, c)) = _
  rw [if_pos h]
  rfl

theorem leValue_append_singleton (bs : List UInt8) (x : UInt8) :
    leValue (bs ++ [x]) = leValue bs ||| x.toNat <<< (8 * bs.length) := by
  have hlt : leValue bs < 2 ^ (8 * bs.length) := by
    rw [Nat.pow_mul]
    exact leValue_lt bs
  have hadd : leValue (bs ++ [x]) = leValue bs + x.toNat * 2 ^ (8 * bs.length) := by
    rw [Nat.pow_mul]
    clear hlt
    induction bs with
    | nil => simp [leValue]
    | cons b bs ih =>
      rw [cons_append, leValue, leValue, ih, length_cons, pow_succ]
      ring
  rw [hadd, lor_comm, ← shiftLeft_add_eq_or_of_lt hlt, shiftLeft_eq, add_comm]

theorem littleEndian_eq {b : List UInt8} {start n : Nat} (h : start + n ≤ b.length) (c : Cursor) :
    littleEndian b start n c = some (leValue ((b.drop start).take n), c) := by
  unfold littleEndian
  induction n with
  | zero => rfl
  | succ n ih =>
    have hbyte : b[start + n]? = some b[start + n] := getElem?_eq_getElem (by omega)
    have htake : (b.drop start).take (n + 1) = (b.drop start).take n ++ [b[start + n]] := by
      rw [take_add_one, getElem?_drop, hbyte]
      rfl
    have hlen : ((b.drop start).take n).length = n := by
      rw [length_take, length_drop]
      omega
    rw [range_succ, foldlM_append, scan_bind, ih (by omega), htake, leValue_append_singleton, hlen]
    rw [bind_some, foldlM_cons, scan_bind, scan_bind, scan_byteAt hbyte]
    rfl

/-- The rounds of the loop that reads a number of the given size. -/
def rounds (size : Nat) : Nat := if size = 9 then 8 else 0

theorem readWide_eq {b : List UInt8} {c : Cursor} {x : UInt8} {rest : List UInt8}
    (h : b.drop c.off = x :: rest) (n : Nat) :
    readWide b c.off n (rounds (n + 1)) c =
      match wide n rest with
      | none => some (.error .varint, c)
      | some (v, m) => some (.ok v, { off := c.off + m, iters := c.iters + rounds m }) := by
  have hlen : b.length - c.off = rest.length + 1 := by
    rw [← length_drop, h, length_cons]
  have hrest : b.drop (c.off + 1) = rest := by
    rw [← drop_drop, h]
    rfl
  unfold readWide wide
  by_cases hn : n ≤ rest.length
  · rw [if_neg (by omega), if_pos hn, scan_bind, scan_tick, bind_some, scan_bind,
      littleEndian_eq (by omega), hrest]
    rfl
  · rw [if_pos (by omega), if_neg hn]
    rfl

theorem readCompactSize_eq (b : List UInt8) (c : Cursor) :
    readCompactSize b c =
      match compact (b.drop c.off) with
      | none => some (.error .varint, c)
      | some (v, m) => some (.ok v, { off := c.off + m, iters := c.iters + rounds m }) := by
  unfold readCompactSize
  rw [scan_bind, scan_get, bind_some]
  show (if c.off ≥ b.length then _ else _ : Scan _) c = _
  cases hdrop : b.drop c.off with
  | nil =>
    rw [if_pos (drop_eq_nil_iff.mp hdrop)]
    rfl
  | cons first rest =>
    have hoff : ¬ c.off ≥ b.length := by
      intro hge
      rw [drop_eq_nil_of_le hge] at hdrop
      cases hdrop
    have hfirst : b[c.off]? = some first := by
      rw [← head?_drop, hdrop]
      rfl
    rw [if_neg hoff, scan_bind, scan_byteAt hfirst, bind_some, compact, widthOf]
    by_cases h2 : first = 0xfd
    · rw [if_pos h2, if_pos h2]
      exact readWide_eq hdrop 2
    by_cases h4 : first = 0xfe
    · rw [if_neg h2, if_neg h2, if_pos h4, if_pos h4]
      exact readWide_eq hdrop 4
    by_cases h8 : first = 0xff
    · rw [if_neg h2, if_neg h2, if_neg h4, if_neg h4, if_pos h8, if_pos h8]
      exact readWide_eq hdrop 8
    · rw [if_neg h2, if_neg h2, if_neg h4, if_neg h4, if_neg h8, if_neg h8]
      rfl

/-- What a number that is read can be. -/
theorem compact_cases {rest : List UInt8} {v m : Nat} (h : compact rest = some (v, m)) :
    ∃ first tail, rest = first :: tail ∧ ((widthOf first = none ∧ v = first.toNat ∧ m = 1) ∨
        ∃ n, widthOf first = some n ∧ n ≤ tail.length ∧ v = leValue (tail.take n) ∧ m = n + 1) := by
  cases rest with
  | nil => cases h
  | cons first tail =>
    refine ⟨first, tail, rfl, ?_⟩
    rw [compact] at h
    cases hw : widthOf first with
    | none =>
      rw [hw] at h
      cases h
      exact .inl ⟨rfl, rfl, rfl⟩
    | some n =>
      rw [hw] at h
      change (if n ≤ tail.length then _ else _) = _ at h
      split at h
      · rename_i hn
        cases h
        exact .inr ⟨n, rfl, hn, rfl, rfl⟩
      · cases h

theorem compact_of_width {first : UInt8} {n : Nat} {tail : List UInt8}
    (hw : widthOf first = some n) (hn : n ≤ tail.length) :
    compact (first :: tail) = some (leValue (tail.take n), n + 1) := by
  rw [compact, hw]
  exact if_pos hn

theorem compact_of_noWidth {first : UInt8} (hw : widthOf first = none) (tail : List UInt8) :
    compact (first :: tail) = some (first.toNat, 1) := by
  rw [compact, hw]

/-- The encoding is there, and longer than the loop that reads it. -/
theorem compact_size {rest : List UInt8} {v m : Nat} (h : compact rest = some (v, m)) :
    rounds m < m ∧ m ≤ rest.length := by
  obtain ⟨first, tail, rfl, ⟨-, -, rfl⟩ | ⟨n, -, hn, -, rfl⟩⟩ := compact_cases h
  · exact ⟨by decide, succ_le_succ (zero_le _)⟩
  · refine ⟨?_, succ_le_succ hn⟩
    unfold rounds
    split <;> omega

/-- Bytes behind the encoding are not read. -/
theorem compact_append {rest : List UInt8} {v m : Nat} (h : compact rest = some (v, m))
    (t : List UInt8) : compact (rest ++ t) = some (v, m) := by
  obtain ⟨first, tail, rfl, ⟨hw, rfl, rfl⟩ | ⟨n, hw, hn, rfl, rfl⟩⟩ := compact_cases h
  · exact compact_of_noWidth hw _
  · rw [cons_append, compact_of_width hw (by rw [length_append]; omega),
      take_append_of_le_length hn]

/-! ## The code computes the parser -/

/-- The rounds so far are paid for by the bytes behind the cursor. -/
def Paid (c : Cursor) : Prop := c.iters + 5 ≤ c.off

/-- A result of the code, where the parser has `parsed`. -/
structure Agrees (tx : List UInt8) (parsed : Option Bool) (r : Except CoinbaseError Bool)
    (c : Cursor) : Prop where
  result : r.toOption = parsed
  iters : c.iters ≤ tx.length
  off : c.off ≤ tx.length + 40

/-- The round the two loops share, up to where they differ. -/
def scanRound {α : Type} (tx : List UInt8) (size : Nat) (e : CoinbaseError)
    (body : Nat → Nat → Scan (Except CoinbaseError α)) : Scan (Except CoinbaseError α) := do
  tick 1
  advance size
  match ← readCompactSize tx with
  | .error _ => return .error e
  | .ok len => do
      let off := (← get).off
      if len > remaining tx off then return .error e else body len off

/-- It stops at a number it cannot read and at a script longer than what is
left, and goes on behind the number. -/
theorem scanRound_cases {α : Type} (tx : List UInt8) (size : Nat) (e : CoinbaseError)
    (body : Nat → Nat → Scan (Except CoinbaseError α)) (c : Cursor) :
    (compact (tx.drop (c.off + size)) = none ∧
      scanRound tx size e body c = some (.error e, ⟨c.off + size, c.iters + 1⟩)) ∨
    ∃ len m, compact (tx.drop (c.off + size)) = some (len, m) ∧ rounds m < m ∧
      c.off + size + m ≤ tx.length ∧
      (tx.length < c.off + size + m + len ∧ scanRound tx size e body c =
          some (.error e, ⟨c.off + size + m, c.iters + 1 + rounds m⟩) ∨
        c.off + size + m + len ≤ tx.length ∧ scanRound tx size e body c =
          body len (c.off + size + m) ⟨c.off + size + m, c.iters + 1 + rounds m⟩) := by
  rw [scanRound, scan_bind, scan_tick, bind_some, scan_bind, scan_advance,
    bind_some, scan_bind, readCompactSize_eq]
  dsimp only
  cases hc : compact (tx.drop (c.off + size)) with
  | none => exact .inl ⟨rfl, rfl⟩
  | some vm =>
    obtain ⟨len, m⟩ := vm
    obtain ⟨hrounds, hm⟩ := compact_size hc
    rw [length_drop] at hm
    have hoff : c.off + size + m ≤ tx.length := by omega
    refine .inr ⟨len, m, rfl, hrounds, hoff, ?_⟩
    show _ ∧ (if len > remaining tx (c.off + size + m) then _ else _ : Scan _) _ = _ ∨
      _ ∧ (if len > remaining tx (c.off + size + m) then _ else _ : Scan _) _ = _
    rw [remaining, if_pos hoff]
    by_cases hlong : len > tx.length - (c.off + size + m)
    · rw [if_pos hlong]
      exact .inl ⟨by omega, rfl⟩
    · rw [if_neg hlong]
      exact .inr ⟨by omega, rfl⟩

theorem scanOutputs_agrees {tx script : List UInt8} (n : Nat) {c : Cursor} (hpaid : Paid c)
    (hoff : c.off ≤ tx.length) : ∃ r c', scanOutputs tx script n c = some (r, c') ∧
      Agrees tx ((searchOutputs script n (tx.drop c.off)).map Prod.fst) r c' := by
  unfold Paid at hpaid
  induction n generalizing c with
  | zero => exact ⟨_, _, rfl, rfl, by omega, by omega⟩
  | succ n ih =>
    have hround : scanOutputs tx script (n + 1) =
        scanRound tx 8 .outputScriptLength (fun pkLen off => do
          let pk ← sliceAt tx off (off + pkLen)
          if pk = script then return .ok true
          else do
            advance pkLen
            scanOutputs tx script n) := rfl
    rw [hround, searchOutputs, drop_drop]
    obtain ⟨hc, h⟩ | ⟨pkLen, m, hc, hrounds, hm, ⟨hlong, h⟩ | ⟨hfits, h⟩⟩ :=
      scanRound_cases tx 8 .outputScriptLength _ c
    · rw [h, hc]
      exact ⟨_, _, rfl, rfl, by dsimp only; omega, by dsimp only; omega⟩
    · rw [h, hc]
      simp only [drop_drop, length_drop]
      rw [if_pos (by omega)]
      exact ⟨_, _, rfl, rfl, by dsimp only; omega, by dsimp only; omega⟩
    · rw [h, hc, scan_bind, scan_sliceAt ⟨le_add_right _ _, hfits⟩, bind_some,
        Nat.add_sub_cancel_left]
      simp only [drop_drop, ← add_assoc]
      have hfits' : ¬ pkLen > (tx.drop (c.off + 8 + m)).length := by
        rw [length_drop]
        omega
      rw [if_neg hfits']
      by_cases heq : (tx.drop (c.off + 8 + m)).take pkLen = script
      · rw [if_pos heq, if_pos heq]
        exact ⟨_, _, rfl, rfl, by dsimp only; omega, by dsimp only; omega⟩
      · rw [if_neg heq, if_neg heq]
        exact ih (by dsimp only; omega) (by dsimp only; omega)

theorem scanInputs_agrees {tx : List UInt8} (n : Nat) {c : Cursor} (hpaid : Paid c)
    (hoff : c.off ≤ tx.length + 4) :
    ∃ r c', scanInputs tx n c = some (r, c') ∧ c'.iters ≤ tx.length ∧
      c'.off ≤ tx.length + 40 ∧
      match skipInputs n (tx.drop c.off) with
      | none => ∃ e, r = .error e
      | some rest => r = .ok () ∧ rest = tx.drop c'.off ∧ Paid c' := by
  unfold Paid at hpaid
  induction n generalizing c with
  | zero => exact ⟨_, _, rfl, by omega, by omega, rfl, rfl, hpaid⟩
  | succ n ih =>
    have hround : scanInputs tx (n + 1) = scanRound tx 36 .scriptSigLength
        fun sl _ => advance (sl + 4) >>= fun _ => scanInputs tx n := rfl
    rw [hround, skipInputs, drop_drop]
    obtain ⟨hc, h⟩ | ⟨sl, m, hc, hrounds, hm, ⟨hlong, h⟩ | ⟨hfits, h⟩⟩ :=
      scanRound_cases tx 36 .scriptSigLength _ c
    · rw [h, hc]
      exact ⟨_, _, rfl, by dsimp only; omega, by dsimp only; omega, _, rfl⟩
    · rw [h, hc]
      simp only [drop_drop, length_drop]
      rw [if_pos (by omega)]
      exact ⟨_, _, rfl, by dsimp only; omega, by dsimp only; omega, _, rfl⟩
    · rw [h, hc]
      simp only [drop_drop, ← add_assoc]
      rw [if_neg (by rw [length_drop]; omega)]
      exact ih (by dsimp only; omega) (by dsimp only; omega)

theorem scanVout_agrees {tx script : List UInt8} {c : Cursor} (hpaid : Paid c)
    (hiters : c.iters ≤ tx.length) (hoff : c.off ≤ tx.length + 40) :
    ∃ r c', scanVout tx script c = some (r, c') ∧
      Agrees tx ((parseVout script (tx.drop c.off)).map Prod.fst) r c' := by
  unfold scanVout parseVout
  rw [scan_bind, scan_get, bind_some]
  by_cases hend : c.off ≥ tx.length
  · rw [if_pos hend, if_pos (drop_eq_nil_of_le hend)]
    exact ⟨_, _, rfl, rfl, hiters, hoff⟩
  · rw [if_neg hend, if_neg (mt drop_eq_nil_iff.mp hend), scan_bind, readCompactSize_eq]
    cases hc : compact (tx.drop c.off) with
    | none => exact ⟨_, _, rfl, rfl, hiters, hoff⟩
    | some vm =>
      obtain ⟨vout, m⟩ := vm
      obtain ⟨hrounds, hm⟩ := compact_size hc
      rw [length_drop] at hm
      unfold Paid at hpaid
      dsimp only
      rw [drop_drop]
      exact scanOutputs_agrees vout (by unfold Paid; dsimp only; omega) (by dsimp only; omega)

theorem scanVin_agrees {tx script : List UInt8} {c : Cursor} (hiters : c.iters = 0)
    (hpos : 4 ≤ c.off) (hoff : c.off ≤ tx.length) : ∃ r c', scanVin tx script c = some (r, c') ∧
      Agrees tx ((parseVin script (tx.drop c.off)).map Prod.fst) r c' := by
  unfold scanVin parseVin
  rw [scan_bind, readCompactSize_eq]
  cases hc : compact (tx.drop c.off) with
  | none => exact ⟨_, _, rfl, rfl, by dsimp only; omega, by dsimp only; omega⟩
  | some vm =>
    obtain ⟨vin, m⟩ := vm
    obtain ⟨hrounds, hm⟩ := compact_size hc
    rw [length_drop] at hm
    have hpaid : Paid { off := c.off + m, iters := c.iters + rounds m } := by
      unfold Paid
      dsimp only
      omega
    rw [bind_some]
    dsimp only
    by_cases hzero : vin = 0
    · rw [if_pos hzero, if_pos hzero]
      exact ⟨_, _, rfl, rfl, by dsimp only; omega, by dsimp only; omega⟩
    · rw [if_neg hzero, if_neg hzero, scan_bind, drop_drop]
      have hnear : c.off + m ≤ tx.length + 4 := by omega
      obtain ⟨r, c', hrun, hi, ho, hparsed⟩ := scanInputs_agrees vin hpaid hnear
      rw [hrun, bind_some]
      dsimp only at hparsed
      cases hskip : skipInputs vin (tx.drop (c.off + m)) with
      | none =>
        rw [hskip] at hparsed
        obtain ⟨e, rfl⟩ := hparsed
        exact ⟨_, _, rfl, rfl, hi, ho⟩
      | some rest =>
        rw [hskip] at hparsed
        obtain ⟨rfl, rfl, hpaid'⟩ := hparsed
        exact scanVout_agrees hpaid' hi ho

theorem readMarker_eq {tx : List UInt8} {off : Nat} (h : off + 1 < tx.length) (c : Cursor) :
    readMarker tx off c = some (decide (tx[off]? = some 0 ∧ tx[off + 1]? = some 1), c) := by
  have h0 : tx[off]? = some tx[off] := getElem?_eq_getElem (by omega)
  have h1 : tx[off + 1]? = some tx[off + 1] := getElem?_eq_getElem h
  unfold readMarker
  rw [scan_bind, scan_byteAt h0, bind_some]
  dsimp only
  by_cases hmarker : tx[off] = 0
  · rw [if_pos hmarker, scan_bind, scan_byteAt h1]
    simp [h0, h1, hmarker]
  · rw [if_neg hmarker]
    simp [h0, hmarker]

/-- The code never panics, makes at most as many rounds as there are bytes,
and finds what the parser finds. -/
theorem callCoinbasePaysScript_agrees (tx script : List UInt8) :
    ∃ r c, callCoinbasePaysScript tx script = some (r, c) ∧
      Agrees tx ((parsePays script tx).map Prod.fst) r c := by
  unfold callCoinbasePaysScript coinbasePaysScript parsePays
  by_cases hshort : tx.length < 10
  · rw [if_pos hshort, if_pos hshort]
    exact ⟨_, _, rfl, rfl, zero_le _, zero_le _⟩
  · rw [if_neg hshort, if_neg hshort, scan_bind, scan_advance, bind_some, scan_bind,
      scan_get, bind_some, scan_bind, readMarker_eq (by dsimp only; omega),
      bind_some, scan_bind, scan_advance, bind_some]
    have hhead : 4 + (if decide (tx[4]? = some 0 ∧ tx[5]? = some 1) = true then 2 else 0) =
        headSize tx := by
      unfold headSize
      by_cases hm : tx[4]? = some 0 ∧ tx[5]? = some 1
      · simp [hm]
      · simp [hm]
    have hsize : headSize tx ≤ 6 ∧ 4 ≤ headSize tx := by
      unfold headSize
      split <;> omega
    dsimp only
    rw [zero_add, hhead]
    exact scanVin_agrees rfl (by dsimp only; omega) (by dsimp only; omega)

end Otedama.Btccrypto
