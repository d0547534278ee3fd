import Otedama.Miner.Target

/-! # Targets of share difficulties

The quotient of the difficulty-1 target and a difficulty is rounded twice:
to 256 significant bits and then down to an integer. A target has at most
256 bits, so the first rounding never crosses an integer, and both keep
the order. -/

namespace Otedama.Miner

open Bytes Int

/-! ## Rounding to an integer -/

/-- Rounding does not cross an integer from below. -/
theorem roundHalfEven_le {x : ℚ} {n : ℤ} (h : x ≤ n) : roundHalfEven x ≤ n := by
  have hfloor : ⌊x⌋ ≤ n := cast_le.mp ((floor_le x).trans h)
  unfold roundHalfEven
  dsimp only
  split
  · exact hfloor
  · rename_i hhalf
    -- The number is not an integer, so its floor is not the bound.
    have hne : ⌊x⌋ ≠ n := by
      intro heq
      rw [heq] at hhalf
      linarith
    split
    · omega
    · split <;> omega

theorem le_roundHalfEven {x : ℚ} {n : ℤ} (h : n ≤ x) : n ≤ roundHalfEven x := by
  have hfloor : n ≤ ⌊x⌋ := le_floor.mpr h
  unfold roundHalfEven
  dsimp only
  split
  · exact hfloor
  · split
    · omega
    · split <;> omega

theorem roundHalfEven_mono {x y : ℚ} (h : x ≤ y) : roundHalfEven x ≤ roundHalfEven y := by
  rcases (floor_mono h).lt_or_eq with hlt | heq
  · -- An integer lies between the two.
    have hx : x ≤ (⌊y⌋ : ℤ) := by
      have hsucc : ((⌊x⌋ + 1 : ℤ) : ℚ) ≤ ⌊y⌋ := cast_le.mpr hlt
      have hx := lt_floor_add_one x
      push_cast at hsucc
      linarith
    exact (roundHalfEven_le hx).trans (le_roundHalfEven (floor_le y))
  · unfold roundHalfEven
    dsimp only
    rw [heq]
    by_cases hy : y - ⌊y⌋ < 1 / 2
    · rw [if_pos hy, if_pos (show x - ⌊y⌋ < 1 / 2 by linarith)]
    · rw [if_neg hy]
      by_cases hy' : 1 / 2 < y - ⌊y⌋
      · rw [if_pos hy']
        split
        · omega
        · split
          · exact le_refl _
          · split <;> omega
      · -- The larger one is a tie, and the smaller one is at most that.
        rw [if_neg hy', if_neg (show ¬ 1 / 2 < x - ⌊y⌋ by linarith)]
        split
        · split <;> omega
        · exact le_refl _

/-! ## Rounding to significant bits -/

/-- The unit of the last of `prec` significant bits. -/
def lastUnit (prec : Nat) (x : ℚ) : ℤ := Int.log 2 x + 1 - prec

theorem roundToPrec_eq (prec : Nat) (x : ℚ) :
    roundToPrec prec x =
      roundHalfEven (x / 2 ^ lastUnit prec x) * 2 ^ lastUnit prec x := rfl

/-- Rounding does not cross a multiple of the last unit. -/
theorem roundToPrec_le {prec : Nat} {x : ℚ} {n : ℤ} (h : x ≤ n * 2 ^ lastUnit prec x) :
    roundToPrec prec x ≤ n * 2 ^ lastUnit prec x := by
  have hpos : (0 : ℚ) < 2 ^ lastUnit prec x := zpow_pos two_pos _
  rw [roundToPrec_eq]
  apply mul_le_mul_of_nonneg_right _ hpos.le
  exact cast_le.mpr (roundHalfEven_le ((div_le_iff₀ hpos).mpr h))

theorem le_roundToPrec {prec : Nat} {x : ℚ} {n : ℤ} (h : n * 2 ^ lastUnit prec x ≤ x) :
    n * 2 ^ lastUnit prec x ≤ roundToPrec prec x := by
  have hpos : (0 : ℚ) < 2 ^ lastUnit prec x := zpow_pos two_pos _
  rw [roundToPrec_eq]
  apply mul_le_mul_of_nonneg_right _ hpos.le
  exact cast_le.mpr (le_roundHalfEven ((le_div_iff₀ hpos).mpr h))

/-- Rounding stays between the powers of two around a number. -/
theorem roundToPrec_le_zpow (prec : Nat) (x : ℚ) : roundToPrec prec x ≤ 2 ^ (log 2 x + 1) := by
  have hpow : (2 : ℚ) ^ (log 2 x + 1) = ((2 ^ prec : ℤ) : ℚ) * 2 ^ lastUnit prec x := by
    push_cast
    rw [← zpow_natCast, ← zpow_add₀ two_ne_zero]
    congr 1
    unfold lastUnit
    omega
  have hlt := lt_zpow_succ_log_self (b := 2) (by decide) x
  rw [hpow]
  apply roundToPrec_le
  rw [← hpow]
  exact_mod_cast hlt.le

theorem zpow_le_roundToPrec {prec : Nat} (hprec : 0 < prec) {x : ℚ} (hx : 0 < x) :
    2 ^ log 2 x ≤ roundToPrec prec x := by
  have hpow : (2 : ℚ) ^ log 2 x = ((2 ^ (prec - 1) : ℤ) : ℚ) * 2 ^ lastUnit prec x := by
    push_cast
    rw [← zpow_natCast, ← zpow_add₀ two_ne_zero]
    congr 1
    unfold lastUnit
    omega
  have hle := zpow_log_le_self (b := 2) (by decide) hx
  rw [hpow]
  apply le_roundToPrec
  rw [← hpow]
  exact_mod_cast hle

theorem roundToPrec_mono {prec : Nat} (hprec : 0 < prec) {x y : ℚ} (hx : 0 < x) (h : x ≤ y) :
    roundToPrec prec x ≤ roundToPrec prec y := by
  rcases (log_mono_right (b := 2) hx h).lt_or_eq with hlt | heq
  · -- A power of two lies between the two.
    calc roundToPrec prec x ≤ 2 ^ (log 2 x + 1) := roundToPrec_le_zpow prec x
      _ ≤ 2 ^ log 2 y := zpow_le_zpow_right₀ one_le_two hlt
      _ ≤ roundToPrec prec y := zpow_le_roundToPrec hprec (hx.trans_le h)
  · have hunit : lastUnit prec x = lastUnit prec y := by
      unfold lastUnit
      rw [heq]
    have hpos : (0 : ℚ) < 2 ^ lastUnit prec y := zpow_pos two_pos _
    rw [roundToPrec_eq, roundToPrec_eq, hunit]
    apply mul_le_mul_of_nonneg_right _ hpos.le
    exact cast_le.mpr (roundHalfEven_mono (div_le_div_of_nonneg_right h hpos.le))

/-- While the last unit is at most 1, rounding does not cross an integer. -/
theorem floor_roundToPrec {prec : Nat} {x : ℚ} (hunit : lastUnit prec x ≤ 0) :
    ⌊roundToPrec prec x⌋ = ⌊x⌋ ∨ ⌊roundToPrec prec x⌋ = ⌊x⌋ + 1 := by
  obtain ⟨k, hk⟩ : ∃ k : Nat, lastUnit prec x = -(k : ℤ) := ⟨(-lastUnit prec x).toNat, by omega⟩
  have hgrid : ∀ n : ℤ, (n : ℚ) = ((n * 2 ^ k : ℤ) : ℚ) * 2 ^ lastUnit prec x := by
    intro n
    rw [hk, zpow_neg, zpow_natCast]
    push_cast
    field_simp
  have hlow : (⌊x⌋ : ℚ) ≤ roundToPrec prec x := by
    rw [hgrid]
    apply le_roundToPrec
    rw [← hgrid]
    exact floor_le x
  have hhigh : roundToPrec prec x ≤ (⌊x⌋ + 1 : ℤ) := by
    rw [hgrid]
    apply roundToPrec_le
    rw [← hgrid]
    exact_mod_cast (lt_floor_add_one x).le
  have hfloor : ⌊x⌋ ≤ ⌊roundToPrec prec x⌋ := le_floor.mpr hlow
  have hfloor' : ⌊roundToPrec prec x⌋ ≤ ⌊x⌋ + 1 := by
    have hmono := floor_mono hhigh
    rwa [floor_intCast] at hmono
  omega

/-! ## Difficulties -/

theorem targetFromDifficulty_eq_ok {d : ℚ} {T : Hash} : targetFromDifficulty d = .ok T ↔
      0 < d ∧ 0 < ⌊roundToPrec 256 (diff1Target / d)⌋ ∧
        (Hash.value T : ℤ) = ⌊roundToPrec 256 (diff1Target / d)⌋ := by
  unfold targetFromDifficulty
  dsimp only
  generalize ⌊roundToPrec 256 (diff1Target / d)⌋ = q
  by_cases hd : 0 < d
  · by_cases hq : q ≤ 0
    · simp [hd, hq]
    · have hbig := hashFromBig_eq_some (v := q.toNat) (t := T)
      have hvalue : (Hash.value T : ℤ) = q ↔ q.toNat < 2 ^ 256 ∧ leValue T.toList = q.toNat := by
        have hlt := Hash.value_lt T
        show ((leValue T.toList : ℕ) : ℤ) = q ↔ _
        change leValue T.toList < 2 ^ 256 at hlt
        omega
      rw [← hbig] at hvalue
      cases hhash : hashFromBig q.toNat with
      | none => simp [hd, hq, hvalue, hhash]
      | some t => simp [hd, hq, hvalue, hhash, lt_of_not_ge hq]
  · simp [hd]

/-- A quotient of 2^256 or more stays that large. -/
theorem lastUnit_nonpos {x : ℚ} (hx : 0 < x) (h : roundToPrec 256 x < 2 ^ 256) :
    lastUnit 256 x ≤ 0 := by
  have hlog : (2 : ℚ) ^ log 2 x < 2 ^ (256 : ℤ) := by
    refine (zpow_le_roundToPrec (show 0 < 256 by decide) hx).trans_lt ?_
    exact_mod_cast h
  rw [zpow_lt_zpow_iff_right₀ one_lt_two] at hlog
  unfold lastUnit
  omega

/-- A target is positive, has at most 256 bits, and is the exact quotient
rounded down or up; a higher difficulty never has a higher target. This
holds for every rational difficulty, and so for every `float64`. -/
theorem targetFromDifficulty_exact_and_antitone :
    (∀ (d : ℚ) (T : Hash), targetFromDifficulty d = .ok T →
      1 ≤ Hash.value T ∧ Hash.value T < 2 ^ 256 ∧
      ((Hash.value T : ℤ) = ⌊0xffff * 2 ^ 208 / d⌋ ∨
        (Hash.value T : ℤ) = ⌊0xffff * 2 ^ 208 / d⌋ + 1)) ∧
    (∀ (d₁ d₂ : ℚ) (T₁ T₂ : Hash), d₁ ≤ d₂ → targetFromDifficulty d₁ = .ok T₁ →
      targetFromDifficulty d₂ = .ok T₂ → Hash.lessOrEqual T₂ T₁ = true) := by
  have hquot : ∀ d : ℚ, (0xffff * 2 ^ 208 : ℚ) / d = diff1Target / d := by
    intro d
    norm_num [diff1Target]
  constructor
  · intro d T h
    obtain ⟨hd, hpos, hvalue⟩ := targetFromDifficulty_eq_ok.mp h
    have hlt := Hash.value_lt T
    have hx : (0 : ℚ) < diff1Target / d := div_pos (by norm_num [diff1Target]) hd
    have hround : roundToPrec 256 (diff1Target / d) < 2 ^ 256 := by
      have hfloor : ⌊roundToPrec 256 (diff1Target / d)⌋ < 2 ^ 256 := by omega
      exact_mod_cast Int.floor_lt.mp hfloor
    refine ⟨by omega, hlt, ?_⟩
    rw [hvalue, hquot]
    exact floor_roundToPrec (lastUnit_nonpos hx hround)
  · intro d₁ d₂ T₁ T₂ hle h₁ h₂
    obtain ⟨hd₁, -, hvalue₁⟩ := targetFromDifficulty_eq_ok.mp h₁
    obtain ⟨hd₂, -, hvalue₂⟩ := targetFromDifficulty_eq_ok.mp h₂
    have hx : (0 : ℚ) < diff1Target / d₂ := div_pos (by norm_num [diff1Target]) hd₂
    have hquotient : (diff1Target : ℚ) / d₂ ≤ diff1Target / d₁ :=
      div_le_div_of_nonneg_left (by norm_num [diff1Target]) hd₁ hle
    have hfloor := Int.floor_mono (roundToPrec_mono (show 0 < 256 by decide) hx hquotient)
    rw [← hvalue₁, ← hvalue₂] at hfloor
    rw [Hash.lessOrEqual_iff]
    exact_mod_cast hfloor

/-- Difficulties 1 and 7; the quotient for 7 is not an integer. -/
theorem targetFromDifficulty_exact_seven :
    ∃ T, targetFromDifficulty 7 = .ok T ∧ Hash.value T < 2 ^ 256 ∧
      ((Hash.value T : ℤ) = ⌊(0xffff * 2 ^ 208 / 7 : ℚ)⌋ ∨
        (Hash.value T : ℤ) = ⌊(0xffff * 2 ^ 208 / 7 : ℚ)⌋ + 1) ∧
      Hash.lessOrEqual T (le256 diff1Target) = true := by
  have hseven : targetFromDifficulty 7 = .ok (le256 (diff1Target / 7)) := by decide +kernel
  obtain ⟨hexact, hmono⟩ := targetFromDifficulty_exact_and_antitone
  have hT := hexact 7 _ hseven
  exact ⟨_, hseven, hT.2.1, hT.2.2,
    hmono 1 7 _ _ (by norm_num) targetFromDifficulty_one hseven⟩

end Otedama.Miner
