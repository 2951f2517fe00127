import EditLens.Number.Shortest
import EditLens.Proofs.Number.Rounding
import Mathlib.Tactic.Positivity

/-! The shortest decimal of a binary64 number. Main statement: it is one of at most seventeen digits that is rounded to
the number. -/
namespace EditLens.Decimal

def value (d : Decimal) : ℚ := d.digits * 10 ^ d.exponent

private theorem zpow_mul_toNat (base : Nat) (hbase : 0 < base) (exponent : Int) :
    (base : ℚ) ^ exponent * (base ^ (-exponent).toNat : ℕ) = (base ^ exponent.toNat : ℕ) := by
  push_cast
  rw [← zpow_natCast, ← zpow_natCast, ← zpow_add₀ (by positivity)]
  congr 1
  omega

section Grid

variable {inclusive : Bool} {low value high den n : Nat} {exponent : Int} {d : Decimal}

/-- Whether a number is below another one, or equal to it if the ends are included. -/
def Within (inclusive : Bool) (a b : Nat) : Prop := if inclusive then a ≤ b else a < b

private theorem le_of_not_within {a b : Nat} (h : ¬Within inclusive a b) : b ≤ a := by
  cases inclusive with
  | true => exact (not_le.1 h).le
  | false => exact not_lt.1 h

/-- A neighbour on the grid is taken if it lies between the ends. -/
private theorem onGrid?_cases (inclusive : Bool) (low value high den : Nat) (exponent : Int) :
    let scale := 10 ^ (-exponent).toNat
    let step := den * 10 ^ exponent.toNat
    let below := value * scale / step
    (Within inclusive (low * scale) (below * step) ∧
        onGrid? inclusive low value high den exponent = some ⟨below, exponent⟩) ∨
      (Within inclusive ((below + 1) * step) (high * scale) ∧
        onGrid? inclusive low value high den exponent = some ⟨below + 1, exponent⟩) ∨
      ¬Within inclusive (low * scale) (below * step) ∧ ¬Within inclusive ((below + 1) * step) (high * scale) ∧
        onGrid? inclusive low value high den exponent = none := by
  intro scale step below
  cases inclusive
  all_goals
    simp only [onGrid?, Within, if_true, Bool.false_eq_true, if_false]
    split
    · rename_i h
      rw [Bool.and_eq_true, decide_eq_true_eq] at h
      exact .inl ⟨h.1, rfl⟩
    split
    · rename_i hhigh
      exact .inr (.inl ⟨hhigh, rfl⟩)
    · rename_i hfirst hhigh
      refine .inr (.inr ⟨fun hlow => hfirst ?_, hhigh, rfl⟩)
      rw [Bool.and_eq_true, Bool.or_eq_true, Bool.or_eq_true, decide_eq_true_eq]
      exact ⟨hlow, .inl (.inl (by simpa using hhigh))⟩

private theorem grid_eq (n den : Nat) (exponent : Int) :
    ((n * (den * 10 ^ exponent.toNat) : ℕ) : ℚ) = n * 10 ^ exponent * den * (10 ^ (-exponent).toNat : ℕ) := by
  have h := zpow_mul_toNat 10 (by decide) exponent
  rw [Nat.cast_mul, Nat.cast_mul, ← h]
  push_cast
  ring

/-- To compare with a point of the grid is to compare with its value. -/
private theorem le_grid_iff (hden : 0 < den) :
    low * 10 ^ (-exponent).toNat ≤ n * (den * 10 ^ exponent.toNat) ↔ (low : ℚ) / den ≤ n * 10 ^ exponent := by
  have hscale : (0 : ℚ) < (10 ^ (-exponent).toNat : ℕ) := by positivity
  rw [div_le_iff₀ (by exact_mod_cast hden), ← mul_le_mul_iff_left₀ hscale, ← grid_eq]
  exact_mod_cast Iff.rfl

private theorem grid_le_iff (hden : 0 < den) :
    n * (den * 10 ^ exponent.toNat) ≤ high * 10 ^ (-exponent).toNat ↔ (n : ℚ) * 10 ^ exponent ≤ high / den := by
  have hscale : (0 : ℚ) < (10 ^ (-exponent).toNat : ℕ) := by positivity
  rw [le_div_iff₀ (by exact_mod_cast hden), ← mul_le_mul_iff_left₀ hscale, ← grid_eq]
  exact_mod_cast Iff.rfl

private theorem within_grid (hden : 0 < den)
    (h : Within inclusive (low * 10 ^ (-exponent).toNat) (n * (den * 10 ^ exponent.toNat))) :
    (low : ℚ) / den ≤ n * 10 ^ exponent ∧ (inclusive = false → (low : ℚ) / den < n * 10 ^ exponent) := by
  cases inclusive with
  | true => exact ⟨(le_grid_iff hden).1 h, nofun⟩
  | false =>
    have hlt := lt_of_not_ge fun hle => not_le_of_gt h ((grid_le_iff hden).2 hle)
    exact ⟨hlt.le, fun _ => hlt⟩

private theorem grid_within (hden : 0 < den)
    (h : Within inclusive (n * (den * 10 ^ exponent.toNat)) (high * 10 ^ (-exponent).toNat)) :
    (n : ℚ) * 10 ^ exponent ≤ high / den ∧ (inclusive = false → (n : ℚ) * 10 ^ exponent < high / den) := by
  cases inclusive with
  | true => exact ⟨(grid_le_iff hden).1 h, nofun⟩
  | false =>
    have hlt := lt_of_not_ge fun hle => not_le_of_gt h ((le_grid_iff hden).2 hle)
    exact ⟨hlt.le, fun _ => hlt⟩

/-- Around a value between the ends stand its neighbours on the grid. -/
private theorem between_neighbours (hden : 0 < den) (value : Nat) (exponent : Int) :
    let below := value * 10 ^ (-exponent).toNat / (den * 10 ^ exponent.toNat)
    (below : ℚ) * 10 ^ exponent ≤ value / den ∧ (value : ℚ) / den < (below + 1 : ℕ) * 10 ^ exponent := by
  intro below
  refine ⟨(grid_le_iff hden).1 (Nat.div_mul_le_self _ _), lt_of_not_ge fun hle => ?_⟩
  exact not_le_of_gt ((Nat.lt_mul_div_succ _ (by positivity)).trans_eq (Nat.mul_comm _ _)) ((grid_le_iff hden).2 hle)

/-- What is found on a grid lies between the ends. -/
private theorem of_onGrid? (hden : 0 < den) (hlow : low < value) (hhigh : value < high)
    (h : onGrid? inclusive low value high den exponent = some d) :
    (low : ℚ) / den ≤ d.value ∧ d.value ≤ high / den ∧
      (inclusive = false → (low : ℚ) / den < d.value ∧ d.value < high / den) := by
  obtain ⟨hbelow, habove⟩ := between_neighbours hden value exponent
  have hden' : (0 : ℚ) < den := by exact_mod_cast hden
  have hlow' : (low : ℚ) / den < value / den := div_lt_div_of_pos_right (by exact_mod_cast hlow) hden'
  have hhigh' : (value : ℚ) / den < high / den := div_lt_div_of_pos_right (by exact_mod_cast hhigh) hden'
  rcases onGrid?_cases inclusive low value high den exponent with ⟨hin, heq⟩ | ⟨hin, heq⟩ | ⟨-, -, heq⟩
  · obtain rfl := Option.some.inj (heq.symm.trans h)
    obtain ⟨hle, hlt⟩ := within_grid hden hin
    exact ⟨hle, hbelow.trans hhigh'.le, fun hopen => ⟨hlt hopen, hbelow.trans_lt hhigh'⟩⟩
  · obtain rfl := Option.some.inj (heq.symm.trans h)
    obtain ⟨hle, hlt⟩ := grid_within hden hin
    exact ⟨hlow'.le.trans habove.le, hle, fun hopen => ⟨hlow'.trans habove, hlt hopen⟩⟩
  · cases heq.symm.trans h

/-- Something is found on a grid whose points are closer to each other than the ends. -/
private theorem isSome_onGrid? (hden : 0 < den) (h : (10 : ℚ) ^ exponent < high / den - low / den) :
    (onGrid? inclusive low value high den exponent).isSome = true := by
  rcases onGrid?_cases inclusive low value high den exponent with ⟨-, heq⟩ | ⟨-, heq⟩ | ⟨hbelow, habove, -⟩
  · rw [heq]
    rfl
  · rw [heq]
    rfl
  · have hlow := (grid_le_iff hden).1 (le_of_not_within hbelow)
    have hhigh := (le_grid_iff hden).1 (le_of_not_within habove)
    push_cast at hhigh
    linarith

end Grid

/-- The exponent of the leading digit is at most that of the value. -/
private theorem ten_zpow_leading_le {num den : Nat} (hnum : 0 < num) (hden : 0 < den) :
    (10 : ℚ) ^ leading num den ≤ num / den := by
  have hden' : (0 : ℚ) < den := by exact_mod_cast hden
  have hnum' : (0 : ℚ) < num := by exact_mod_cast hnum
  rw [leading]
  split
  · rename_i hle
    set places := (Nat.toDigits 10 (num / den)).length with hplaces
    have hpos : 0 < places := Nat.length_toDigits_pos
    have hdigits : 10 ^ (places - 1) ≤ num / den := by
      by_cases hone : places = 1
      · rw [hone]
        exact Nat.div_pos hle hden
      · exact not_lt.1 fun hlt => absurd ((Nat.length_toDigits_le_iff (by decide) (by omega)).2 hlt) (by omega)
    rw [show ((places : ℤ) - 1) = ((places - 1 : ℕ) : ℤ) by omega, zpow_natCast, le_div_iff₀ hden']
    exact_mod_cast (Nat.le_div_iff_mul_le hden).1 hdigits
  · set quotient := (den + num - 1) / num - 1
    have hdigits : quotient < 10 ^ (Nat.toDigits 10 quotient).length :=
      (Nat.length_toDigits_le_iff (by decide) Nat.length_toDigits_pos).1 le_rfl
    have hquotient : (den + num - 1) / num < 10 ^ (Nat.toDigits 10 quotient).length + 1 := by omega
    have hle : den ≤ 10 ^ (Nat.toDigits 10 quotient).length * num := by
      rw [Nat.div_lt_iff_lt_mul hnum, Nat.add_mul] at hquotient
      omega
    rw [show Int.neg ((Nat.toDigits 10 quotient).length : ℤ) = -((Nat.toDigits 10 quotient).length : ℤ) from rfl,
      zpow_neg, zpow_natCast, le_div_iff₀ hden', inv_mul_le_iff₀ (by positivity)]
    exact_mod_cast hle

end EditLens.Decimal

namespace EditLens.Binary64

open Decimal

variable {x : Binary64}

/-- Quarters of the spacing are whole numbers over the denominator that the search for a decimal works with. -/
private theorem quarters_div (x : Binary64) (k : Nat) :
    ((k * 2 ^ (x.exponent - 2).toNat : ℕ) : ℚ) / (2 ^ (-(x.exponent - 2)).toNat : ℕ) = k / 4 * x.spacing := by
  have h := zpow_mul_toNat 2 (by decide) (x.exponent - 2)
  rw [div_eq_iff (by positivity), Nat.cast_mul, ← h, spacing, Nat.cast_ofNat, zpow_sub₀ (by norm_num)]
  ring

private theorem significand_of_isNarrow (h : x.isNarrow = true) : x.significand = leadingBit := by
  simp only [isNarrow, Bool.and_eq_true, beq_iff_eq, decide_eq_true_eq] at h
  rw [significand, if_neg (by omega), h.1, Nat.zero_add]

/-- The points of the grid of seventeen digits are closer to each other than the ends of what is rounded to a
number. -/
private theorem grid_lt_width {lead : Int} (hlead : (10 : ℚ) ^ lead ≤ x.significand * x.spacing) :
    (10 : ℚ) ^ (lead - 16) < x.highEnd - x.lowEnd := by
  have hlt : (x.significand : ℚ) < 2 ^ 53 := by exact_mod_cast x.significand_lt
  rw [zpow_sub₀ (by norm_num), highEnd, lowEnd, ← sub_mul]
  refine lt_of_le_of_lt (div_le_div_of_nonneg_right hlead (by positivity)) ?_
  rw [mul_div_right_comm]
  refine mul_lt_mul_of_pos_right ?_ x.spacing_pos
  rw [div_lt_iff₀ (by positivity)]
  split
  · rename_i hnarrow
    rw [significand_of_isNarrow hnarrow, leadingBit]
    norm_num
  · norm_num at hlt ⊢
    linarith

/-- The shortest decimal of a number is rounded to the number. -/
theorem rounds_shortest (hpos : 0 < x.significand) : x.Rounds (shortest x).value := by
  have hden : 0 < 2 ^ (-(x.exponent - 2)).toNat := by positivity
  have hup : 0 < 2 ^ (x.exponent - 2).toNat := by positivity
  set narrowing := if x.isNarrow then 1 else 2 with hnarrowing
  have hnarrow : narrowing = 1 ∨ narrowing = 2 := by
    rw [hnarrowing]
    split
    · exact .inl rfl
    · exact .inr rfl
  have hlow := x.quarters_div (4 * x.significand - narrowing)
  have hvalue := x.quarters_div (4 * x.significand)
  have hhigh := x.quarters_div (4 * x.significand + 2)
  have hlowEnd : ((4 * x.significand - narrowing : ℕ) : ℚ) / 4 * x.spacing = x.lowEnd := by
    rw [lowEnd, Nat.cast_sub (by omega), hnarrowing]
    split <;> push_cast <;> ring
  have hhighEnd : ((4 * x.significand + 2 : ℕ) : ℚ) / 4 * x.spacing = x.highEnd := by
    rw [highEnd]
    push_cast
    ring
  rw [hlowEnd] at hlow
  rw [hhighEnd] at hhigh
  set up := 2 ^ (x.exponent - 2).toNat
  set den := 2 ^ (-(x.exponent - 2)).toNat
  -- the search goes on to seventeen digits at most, where the grid is fine enough
  have hgrid : (10 : ℚ) ^ (leading (4 * x.significand * up) den - 16) <
      ((4 * x.significand + 2) * up : ℕ) / den - ((4 * x.significand - narrowing) * up : ℕ) / den := by
    rw [hlow, hhigh]
    refine grid_lt_width ((ten_zpow_leading_le (by positivity) hden).trans_eq ?_)
    rw [hvalue]
    push_cast
    ring
  have hfound : ∃ d, ((List.range 17).findSome? fun (n : Nat) =>
      onGrid? (x.significand % 2 == 0) ((4 * x.significand - narrowing) * up) (4 * x.significand * up)
        ((4 * x.significand + 2) * up) den (leading (4 * x.significand * up) den - n)) = some d := by
    rw [← Option.isSome_iff_exists, List.findSome?_isSome_iff]
    exact ⟨16, by simp, isSome_onGrid? hden hgrid⟩
  obtain ⟨d, hd⟩ := hfound
  have hshortest : shortest x = d := congrArg (Option.getD · _) hd
  obtain ⟨n, -, hn⟩ := List.exists_of_findSome?_eq_some hd
  obtain ⟨hle, hle', hstrict⟩ := of_onGrid? hden (by gcongr; omega) (by gcongr; omega) hn
  rw [hlow] at hle hstrict
  rw [hhigh] at hle' hstrict
  rw [hshortest]
  exact ⟨hle, hle', fun hodd => hstrict (by simp [hodd])⟩

end EditLens.Binary64
