import Otedama.Miner.Header

/-! # Numbers in the reasons of assignments

`%.nf` and `%.ng` of Go's `fmt` for non-negative numbers, on exact
rationals. Both round the exact value, ties to even. -/

namespace Otedama.Arbitration

/-- The nearest natural number; the even one of two that are equally near. -/
def nearest (q : ℚ) : ℕ := (Miner.roundHalfEven q).toNat

/-- The last `width` decimal digits of `n`, with leading zeros. -/
def padded (width n : ℕ) : List Char :=
  ((List.range width).map fun i => Nat.digitChar (n / 10 ^ i % 10)).reverse

/-- `fmt.Sprintf("%.nf", q)`, where `prec` is the `n`. -/
def fmtFixed (prec : ℕ) (q : ℚ) : String :=
  let n := nearest (q * 10 ^ prec)
  if prec = 0 then toString n
  else toString (n / 10 ^ prec) ++ "." ++ String.ofList (padded prec n)

/-- The first `prec` significant digits of `q`, without trailing zeros, and
the decimal exponent of the first of them. -/
def significand (prec : ℕ) (q : ℚ) : List Char × ℤ :=
  let exp := Int.log 10 q
  let n := nearest (q / 10 ^ (exp - (prec - 1)))
  -- Rounding 9.99… up yields one digit more.
  let carried := n = 10 ^ prec
  let digits := padded prec (if carried then n / 10 else n)
  ((digits.reverse.dropWhile (· == '0')).reverse, if carried then exp + 1 else exp)

/-- An exponent as `%e` prints it: its sign and at least two digits. -/
def fmtExponent (exp : ℤ) : String :=
  (if exp < 0 then "e-" else "e+") ++
    (if exp.natAbs < 10 then "0" else "") ++ toString exp.natAbs

/-- `fmt.Sprintf("%.ng", q)`, where `prec` is the `n`: the shorter of the plain
and the exponent form. -/
def fmtGeneral (prec : ℕ) (q : ℚ) : String :=
  if q = 0 then "0"
  else
    let (digits, exp) := significand prec q
    if exp < -4 ∨ prec ≤ exp then
      String.ofList (digits.take 1) ++
        (if digits.length ≤ 1 then "" else "." ++ String.ofList (digits.drop 1)) ++
        fmtExponent exp
    else if exp < 0 then
      "0." ++ String.ofList (List.replicate (exp.natAbs - 1) '0' ++ digits)
    else
      let whole := exp.toNat + 1
      String.ofList (digits.take whole ++ List.replicate (whole - digits.length) '0') ++
        (if digits.length ≤ whole then "" else "." ++ String.ofList (digits.drop whole))

end Otedama.Arbitration
