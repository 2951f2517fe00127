import EditLens.Number.Binary64
import Mathlib.Algebra.Order.Field.Power
import Mathlib.Tactic.Linarith
import Mathlib.Tactic.NormNum
import Mathlib.Tactic.Ring

/-! What is rounded to a binary64 number. Main statement: no two numbers of one sign have a value in common that is
rounded to both of them. -/
namespace EditLens.Binary64

variable {x y : Binary64} {r : ℚ}

private theorem biased_eq (x : Binary64) : x.biased = x.bits.toNat / 2 ^ 52 % 2 ^ 11 := by
  rw [biased, UInt64.toNat_and, UInt64.toNat_shiftRight]
  exact (Nat.and_two_pow_sub_one_eq_mod _ 11).trans (by rw [Nat.shiftRight_eq_div_pow]; rfl)

private theorem fraction_eq (x : Binary64) : x.fraction = x.bits.toNat % 2 ^ 52 := by
  rw [fraction, UInt64.toNat_and]
  exact Nat.and_two_pow_sub_one_eq_mod _ 52

private theorem negative_eq (x : Binary64) : x.negative = decide (x.bits.toNat / 2 ^ 63 = 1) := by
  rw [negative, beq_eq_decide, decide_eq_decide, ← UInt64.toNat_inj, UInt64.toNat_shiftRight,
    Nat.shiftRight_eq_div_pow]
  rfl

private theorem fraction_lt (x : Binary64) : x.fraction < leadingBit := by
  rw [fraction_eq, leadingBit]
  omega

/-- A number is told by its sign, its exponent and its fraction. -/
theorem eq_of_parts (hsign : x.negative = y.negative) (hbiased : x.biased = y.biased)
    (hfraction : x.fraction = y.fraction) : x = y := by
  obtain ⟨a⟩ := x
  obtain ⟨b⟩ := y
  have ha := a.toNat_lt
  have hb := b.toNat_lt
  simp only [negative_eq, biased_eq, fraction_eq, decide_eq_decide] at hsign hbiased hfraction
  rw [mk.injEq, ← UInt64.toNat_inj]
  omega

def spacing (x : Binary64) : ℚ := 2 ^ x.exponent

theorem spacing_pos (x : Binary64) : 0 < x.spacing := zpow_pos (by norm_num) _

/-- Whether a number is a power of two with a closer number below it than above. -/
def isNarrow (x : Binary64) : Bool := x.fraction == 0 && 1 < x.biased

def lowEnd (x : Binary64) : ℚ := (x.significand - if x.isNarrow then 1 / 4 else 1 / 2) * x.spacing

def highEnd (x : Binary64) : ℚ := (x.significand + 1 / 2) * x.spacing

/-- Values that are rounded to the magnitude of a number; the ends are, if the significand is even. -/
structure Rounds (x : Binary64) (r : ℚ) : Prop where
  low : x.lowEnd ≤ r
  high : r ≤ x.highEnd
  odd : x.significand % 2 = 1 → x.lowEnd < r ∧ r < x.highEnd

theorem half_le_lowEnd (x : Binary64) : (x.significand - 1 / 2) * x.spacing ≤ x.lowEnd := by
  refine mul_le_mul_of_nonneg_right ?_ x.spacing_pos.le
  split <;> linarith

/-- Of numbers with one exponent, the greater one begins where the other one ends. -/
private theorem not_rounds_of_significand_lt (hx : x.Rounds r) (hy : y.Rounds r) (hexp : x.exponent = y.exponent)
    (hlt : x.significand < y.significand) : False := by
  have hspacing : y.spacing = x.spacing := by rw [spacing, spacing, hexp]
  have hlow := y.half_le_lowEnd
  have hhigh : x.highEnd = (x.significand + 1 / 2) * x.spacing := rfl
  rw [hspacing] at hlow
  have hle := le_of_mul_le_mul_right (hlow.trans (hy.low.trans hx.high)) x.spacing_pos
  have hnext : y.significand = x.significand + 1 := by
    have hupper : (y.significand : ℚ) ≤ (x.significand + 1 : ℕ) := by
      push_cast
      linarith
    exact le_antisymm (by exact_mod_cast hupper) hlt
  have hmeet : (y.significand - 1 / 2 : ℚ) * x.spacing = (x.significand + 1 / 2) * x.spacing := by
    rw [hnext]
    push_cast
    ring
  rcases Nat.mod_two_eq_zero_or_one x.significand with heven | hodd
  · have hstrict := (hy.odd (by omega)).1
    have := hx.high
    linarith
  · have hstrict := (hx.odd hodd).2
    have := hy.low
    linarith

theorem significand_lt (x : Binary64) : x.significand < 2 * leadingBit := by
  have hfraction := x.fraction_lt
  rw [significand]
  split <;> omega

/-- Of numbers with different exponents, the one with the greater exponent begins where the other one ends, or
above. -/
private theorem not_rounds_of_exponent_lt (hx : x.Rounds r) (hy : y.Rounds r) (hexp : x.exponent < y.exponent) :
    False := by
  have hu := x.spacing_pos
  have hdouble : 2 * x.spacing ≤ y.spacing := by
    rw [spacing, spacing, ← zpow_one_add₀ (by norm_num)]
    exact zpow_le_zpow_right₀ (by norm_num) (by omega)
  have hbiased : 1 < y.biased := by
    simp only [exponent] at hexp
    omega
  have hnormal : y.significand = y.fraction + leadingBit := by
    rw [significand, if_neg (by omega)]
  have hlow := hy.low
  have hhigh := hx.high
  rw [highEnd] at hhigh
  have hlarge := x.significand_lt
  rw [leadingBit] at hnormal hlarge
  by_cases hzero : y.fraction = 0
  · rw [lowEnd, hnormal, if_pos (by simp [isNarrow, hzero, hbiased]), hzero] at hlow
    have hends : (2 ^ 53 - 1 / 2 : ℚ) * x.spacing ≤ r := by
      norm_num at hlow ⊢
      linarith
    have htop : x.significand = 2 ^ 53 - 1 := by
      have hle := le_of_mul_le_mul_right (hends.trans hhigh) hu
      have hupper : ((2 ^ 53 : ℕ) : ℚ) ≤ (x.significand + 1 : ℕ) := by
        push_cast
        linarith
      have : 2 ^ 53 ≤ x.significand + 1 := by exact_mod_cast hupper
      omega
    have hstrict := (hx.odd (by omega)).2
    rw [highEnd, htop] at hstrict
    norm_num at hstrict hends
    linarith
  · have hlow := y.half_le_lowEnd.trans hlow
    have habove : (2 ^ 53 + 1 : ℚ) * x.spacing ≤ r := by
      have hone : (1 : ℚ) ≤ y.fraction := by exact_mod_cast Nat.pos_of_ne_zero hzero
      have hsignificand : (2 ^ 52 + 1 / 2 : ℚ) ≤ y.significand - 1 / 2 := by
        rw [hnormal]
        push_cast
        linarith
      calc (2 ^ 53 + 1 : ℚ) * x.spacing = (2 ^ 52 + 1 / 2) * (2 * x.spacing) := by ring
        _ ≤ (y.significand - 1 / 2) * y.spacing := by
          refine mul_le_mul hsignificand hdouble (by linarith) (by linarith)
        _ ≤ r := hlow
    have hle := le_of_mul_le_mul_right (habove.trans hhigh) hu
    have hsmall : (x.significand : ℚ) < (2 ^ 53 : ℕ) := by exact_mod_cast hlarge
    push_cast at hsmall
    linarith

/-- A number is told by its sign and one value that is rounded to its magnitude. -/
theorem eq_of_rounds (hsign : x.negative = y.negative) (hx : x.Rounds r) (hy : y.Rounds r) : x = y := by
  have hexp : x.exponent = y.exponent := by
    rcases lt_trichotomy x.exponent y.exponent with h | h | h
    · exact (not_rounds_of_exponent_lt hx hy h).elim
    · exact h
    · exact (not_rounds_of_exponent_lt hy hx h).elim
  have hsignificand : x.significand = y.significand := by
    rcases lt_trichotomy x.significand y.significand with h | h | h
    · exact (not_rounds_of_significand_lt hx hy hexp h).elim
    · exact h
    · exact (not_rounds_of_significand_lt hy hx hexp.symm h).elim
  have hfractions := x.fraction_lt
  have hfractions' := y.fraction_lt
  rw [significand, significand] at hsignificand
  simp only [exponent] at hexp
  have hparts : x.biased = y.biased ∧ x.fraction = y.fraction := by
    split at hsignificand <;> split at hsignificand <;> omega
  exact eq_of_parts hsign hparts.1 hparts.2

end EditLens.Binary64
