import Mathlib.Tactic.Ring
import Otedama.Framework.Utf8

/-! # Hexadecimal text

Hexadecimal encodings of byte strings (`encoding/hex`) and of numbers
(`%08x` and `strconv.ParseUint` with base 16), with the round trips. -/

namespace Hex

/-! ## Digits -/

/-- The lower-case digit of a value below 16. -/
def digit (v : Nat) : UInt8 := if v < 10 then UInt8.ofNat (0x30 + v) else UInt8.ofNat (0x57 + v)

/-- The value of a digit of either case. -/
def value (c : UInt8) : Option Nat :=
  if 0x30 ≤ c ∧ c ≤ 0x39 then some (c.toNat - 0x30)
  else if 0x61 ≤ c ∧ c ≤ 0x66 then some (c.toNat - 0x57)
  else if 0x41 ≤ c ∧ c ≤ 0x46 then some (c.toNat - 0x37)
  else none

theorem value_digit {v : Nat} (h : v < 16) : value (digit v) = some v := by
  have hall : ∀ v < 16, value (digit v) = some v := by decide
  exact hall v h

/-! ## Byte strings -/

/-- `hex.EncodeToString`. -/
def encode : List UInt8 → GoString
  | [] => []
  | b :: bs => digit (b.toNat / 16) :: digit (b.toNat % 16) :: encode bs

/-- `hex.DecodeString`; `none` for text of odd length or with a character that
is no digit. -/
def decode : GoString → Option (List UInt8)
  | [] => some []
  | [_] => none
  | high :: low :: rest =>
      match value high, value low, decode rest with
      | some h, some l, some bs => some (UInt8.ofNat (16 * h + l) :: bs)
      | _, _, _ => none

@[simp] theorem decode_encode (bs : List UInt8) : decode (encode bs) = some bs := by
  induction bs with
  | nil => rfl
  | cons b bs ih =>
    have hb := b.toNat_lt
    have hhigh : value (digit (b.toNat / 16)) = some (b.toNat / 16) := value_digit (by omega)
    have hlow : value (digit (b.toNat % 16)) = some (b.toNat % 16) := value_digit (by omega)
    have hsum : 16 * (b.toNat / 16) + b.toNat % 16 = b.toNat := by omega
    simp only [encode, decode, hhigh, hlow, ih, hsum, UInt8.ofNat_toNat]

@[simp] theorem encode_eq_nil {bs : List UInt8} : encode bs = [] ↔ bs = [] := by
  cases bs <;> simp [encode]

/-! ## Numbers -/

/-- Why a number is refused. -/
inductive NumError where
  | invalidSyntax
  | outOfRange
  deriving DecidableEq, Repr

/-- The loop of `strconv.ParseUint(s, 16, 32)`. -/
def parseLoop (n : Nat) : GoString → Except NumError Nat
  | [] => .ok n
  | c :: cs =>
      match value c with
      | none => .error .invalidSyntax
      | some d => if 2 ^ 32 ≤ 16 * n + d then .error .outOfRange else parseLoop (16 * n + d) cs

/-- `strconv.ParseUint(s, 16, 32)`. -/
def parseUint32 (s : GoString) : Except NumError UInt32 :=
  if s = [] then .error .invalidSyntax
  else (parseLoop 0 s).map UInt32.ofNat

/-- The `k` low-order digits of `v`, most significant first. -/
def digits : Nat → Nat → GoString
  | 0, _ => []
  | k + 1, v => digits k (v / 16) ++ [digit (v % 16)]

/-- `%08x`. -/
def format32 (v : UInt32) : GoString := digits 8 v.toNat

/-- Reading `k` digits. -/
theorem parseLoop_digits (k : Nat) : ∀ {n v : Nat} (rest : GoString), v < 16 ^ k →
    n * 16 ^ k + v < 2 ^ 32 →
    parseLoop n (digits k v ++ rest) = parseLoop (n * 16 ^ k + v) rest := by
  induction k with
  | zero =>
    intro n v rest hv _
    obtain rfl : v = 0 := by simpa using hv
    simp [digits]
  | succ k ih =>
    intro n v rest hv hlt
    rw [pow_succ] at hv hlt
    have hsplit : 16 * (n * 16 ^ k + v / 16) + v % 16 = n * (16 ^ k * 16) + v := by
      have := Nat.div_add_mod v 16
      calc 16 * (n * 16 ^ k + v / 16) + v % 16
          = n * (16 ^ k * 16) + (16 * (v / 16) + v % 16) := by ring
        _ = n * (16 ^ k * 16) + v := by rw [this]
    -- The induction peels off the last digit, which the loop reads after the others.
    have hdigits : digits (k + 1) v ++ rest = digits k (v / 16) ++ (digit (v % 16) :: rest) := by
      simp [digits]
    rw [hdigits, ih _ (by omega) (by omega), parseLoop, value_digit (by omega)]
    dsimp only
    rw [hsplit, if_neg (Nat.not_le.mpr hlt), pow_succ]

@[simp] theorem parseUint32_format32 (v : UInt32) : parseUint32 (format32 v) = .ok v := by
  have hne : format32 v ≠ [] := by simp [format32, digits]
  have hv := v.toNat_lt
  have hloop := parseLoop_digits 8 (n := 0) [] (v := v.toNat) (by omega) (by omega)
  rw [List.append_nil, zero_mul, zero_add] at hloop
  rw [parseUint32, if_neg hne, format32, hloop]
  simp [parseLoop, Except.map]

end Hex
