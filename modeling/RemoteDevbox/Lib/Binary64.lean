import Mathlib.Data.Int.Log
import Mathlib.Data.Rat.Floor
import Mathlib.Tactic.Linarith

/-!
# Rounding to doubles

The double nearest to a rational has 53 binary digits, none of them below `2 ^ -1074`; of two
that are as near it is the even one. What reaches `2 ^ 1024` is infinite.
-/

namespace Binary64

/-- The nearest whole number, of two the even one. -/
def nearest (q : ℚ) : ℤ :=
  if q - ⌊q⌋ < 1 / 2 ∨ q - ⌊q⌋ = 1 / 2 ∧ ⌊q⌋ % 2 = 0 then ⌊q⌋ else ⌊q⌋ + 1

/-- The exponent of the last binary digit. -/
def place (q : ℚ) : ℤ := max (Int.log 2 |q| - 52) (-1074)

/-- The nearest double, where there is no bound on its size. -/
def round (q : ℚ) : ℚ := nearest (q / 2 ^ place q) * 2 ^ place q

def limit : ℚ := 2 ^ 1024

theorem lt_limit : (2 : ℚ) ^ 53 < limit := by
  rw [limit]
  exact pow_lt_pow_right₀ one_lt_two (by decide)

theorem floor_le_nearest (q : ℚ) : ⌊q⌋ ≤ nearest q := by
  rw [nearest]
  split
  · exact le_rfl
  · exact Int.le_add_one le_rfl

theorem le_nearest {z : ℤ} {q : ℚ} (h : (z : ℚ) ≤ q) : z ≤ nearest q :=
  (Int.le_floor.mpr h).trans (floor_le_nearest q)

theorem nearest_intCast (z : ℤ) : nearest z = z := by
  rw [nearest, Int.floor_intCast, sub_self]
  exact if_pos (.inl one_half_pos)

theorem two_zpow_pos (e : ℤ) : (0 : ℚ) < 2 ^ e := zpow_pos two_pos e

theorem log_lt {q : ℚ} {e : ℤ} (he : 0 < e) (h : |q| < 2 ^ e) : Int.log 2 |q| < e := by
  rcases (abs_nonneg q).eq_or_lt with hzero | hpos
  · rw [← hzero, Int.log_zero_right]
    exact he
  · exact (Int.lt_zpow_iff_log_lt (by decide) hpos).mp (by exact_mod_cast h)

theorem place_nonpos {q : ℚ} (h : |q| < 2 ^ (53 : ℤ)) : place q ≤ 0 := by
  have hlog : Int.log 2 |q| < 53 := log_lt (by decide) h
  exact max_le (by omega) (by decide)

/-- A whole number in units of the last digit. -/
theorem intCast_div_zpow (z : ℤ) {e : ℤ} (he : e ≤ 0) :
    (z : ℚ) / 2 ^ e = (z * 2 ^ (-e).toNat : ℤ) := by
  obtain ⟨n, rfl⟩ : ∃ n : ℕ, e = -n := ⟨(-e).toNat, by omega⟩
  rw [zpow_neg, zpow_natCast, div_inv_eq_mul, neg_neg, Int.toNat_natCast]
  push_cast
  rfl

/-- A whole number that a double can be is a lower bound of what is rounded above it. -/
theorem le_round {z : ℤ} {q : ℚ} (hz : z ≤ 2 ^ 53) (h : (z : ℚ) ≤ q) (hq : 0 ≤ q) :
    (z : ℚ) ≤ round q := by
  have hpos := two_zpow_pos (place q)
  rw [round, ← div_le_iff₀ hpos]
  rcases lt_or_ge |q| (2 ^ (53 : ℤ)) with hsmall | hlarge
  · rw [intCast_div_zpow z (place_nonpos hsmall)]
    refine Int.cast_le.mpr (le_nearest ?_)
    rw [← intCast_div_zpow z (place_nonpos hsmall)]
    exact div_le_div_of_nonneg_right h hpos.le
  · -- the first digit is set, so `q` has at least `2 ^ 52` units
    rw [abs_of_nonneg hq] at hlarge
    have hqpos : 0 < q := (two_zpow_pos 53).trans_le hlarge
    have hlog : 53 ≤ Int.log 2 q :=
      (Int.zpow_le_iff_le_log (by decide) hqpos).mp (by exact_mod_cast hlarge)
    have hplace : place q = Int.log 2 q - 52 := by
      rw [place, abs_of_nonneg hq]
      exact max_eq_left (by omega)
    have hunits : (((2 ^ 52 : ℤ)) : ℚ) ≤ q / 2 ^ place q := by
      rw [le_div_iff₀ hpos, hplace]
      have hsplit : ((2 ^ 52 : ℤ) : ℚ) * 2 ^ (Int.log 2 q - 52) = 2 ^ Int.log 2 q := by
        rw [zpow_sub₀ two_ne_zero]
        push_cast
        rw [mul_div_assoc']
        exact mul_div_cancel_left₀ _ (by positivity)
      rw [hsplit]
      exact_mod_cast Int.zpow_log_le_self (b := 2) (by decide) hqpos
    have hone : (2 : ℚ) ≤ 2 ^ place q := by
      rw [hplace]
      calc (2 : ℚ) = 2 ^ (1 : ℤ) := (zpow_one 2).symm
        _ ≤ 2 ^ (Int.log 2 q - 52) := zpow_le_zpow_right₀ one_le_two (by omega)
    calc (z : ℚ) / 2 ^ place q ≤ 2 ^ 53 / 2 ^ place q :=
          div_le_div_of_nonneg_right (by exact_mod_cast hz) hpos.le
      _ ≤ (2 ^ 52 : ℤ) := by
          rw [div_le_iff₀ hpos]
          push_cast
          linarith
      _ ≤ nearest (q / 2 ^ place q) := Int.cast_le.mpr (le_nearest hunits)

theorem round_intCast {z : ℤ} (h : |z| < 2 ^ 53) : round z = z := by
  have hsmall : |(z : ℚ)| < 2 ^ (53 : ℤ) := by exact_mod_cast h
  rw [round, intCast_div_zpow z (place_nonpos hsmall), nearest_intCast,
    ← intCast_div_zpow z (place_nonpos hsmall)]
  exact div_mul_cancel₀ _ (two_zpow_pos _).ne'

theorem den_mul_zpow_dvd (z : ℤ) {e : ℤ} {digits : ℕ} (h : -(digits : ℤ) ≤ e) :
    ((z : ℚ) * 2 ^ e).den ∣ 10 ^ digits := by
  obtain ⟨n, rfl⟩ : ∃ n : ℕ, e = n - digits := ⟨(e + digits).toNat, by omega⟩
  have hfraction : (z : ℚ) * 2 ^ ((n : ℤ) - digits) =
      Rat.divInt (z * 2 ^ n) ((2 ^ digits : ℕ) : ℤ) := by
    rw [Rat.divInt_eq_div, zpow_sub₀ two_ne_zero, zpow_natCast, zpow_natCast, mul_div_assoc']
    push_cast
    rfl
  rw [hfraction]
  have hden := Int.natCast_dvd_natCast.mp (Rat.den_dvd (z * 2 ^ n) (2 ^ digits : ℕ))
  exact hden.trans (pow_dvd_pow_of_dvd (by decide) digits)

/-- A double has a finite decimal expansion. -/
theorem den_round_dvd (q : ℚ) : (round q).den ∣ 10 ^ 1074 :=
  den_mul_zpow_dvd _ (le_max_right _ _)

end Binary64
