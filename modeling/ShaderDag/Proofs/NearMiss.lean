import Mathlib.Algebra.Order.Ring.Abs
import ShaderDag.Proofs.Fractions
import ShaderDag.Proofs.Interval

/-!
# Decimals next to midpoints

A midpoint of the 32-bit format is an odd number of half units `2 ^ -150`, shifted by some places.  A
decimal on a grid that is coarser than this shift is either the midpoint itself, or it keeps a distance to
it that a number of 53 binary digits can show.  There is one exception, a decimal of seven digits next to
a midpoint of 25 binary digits.

After multiplication with a common denominator the two are multiples `n * p` and `w * q` of two whole
numbers that depend on the decimal grid and the shift, so that the fraction `w / n` is close to the
quotient `p / q`.  Either `p` and `q` share a factor that is too large for a short distance, or the close
fractions with small numerators are listed.

* `gridStep`, `midpointStep` — the two whole numbers;
* `settled_of_lt` — the decimal grids, one by one;
* `eq_of_close` — the only fraction that is close to a quotient;
* `Decimal.eq_of_near` — the only decimal next to a midpoint.
-/

namespace ShaderDag

open BinaryFormat

variable {i n u w s : Nat}

/-! ### The decimal grids -/

/-- What the midpoints are multiples of, after multiplication with `10 ^ 44 * 2 ^ (275 - s)` for a shift
`s`. -/
def midpointStep : Nat := tenTo 44 * twoTo 125

/-- The places that the grid `10 ^ (i - 44)` is shifted by at least, if it is coarse for the midpoints. -/
def leastPlaces (i : Nat) : Nat :=
  let ratio := 7 * midpointStep / (4 * tenTo i)
  if ratio = 0 then 0 else ratio.log2 + 1

/-- What the grid `10 ^ (i - 44)` is counted in, with the least places. -/
def gridStep (i : Nat) : Nat := tenTo i * twoTo (leastPlaces i)

theorem leastPlaces_le (coarse : 7 * midpointStep < 4 * (tenTo i * twoTo u)) : leastPlaces i ≤ u := by
  have less : 7 * midpointStep / (4 * tenTo i) < 2 ^ u := by
    rw [Nat.div_lt_iff_lt_mul (Nat.mul_pos (by decide) (tenTo_pos i)), Nat.mul_comm (2 ^ u), Nat.mul_assoc]
    exact coarse
  unfold leastPlaces
  dsimp only
  split
  · exact Nat.zero_le u
  · next nonzero => exact (Nat.log2_lt nonzero).2 less

/-- A grid has no point next to a midpoint because all distances are long, or has only the ones that are
listed. -/
def Settled (i : Nat) : Prop :=
  midpointStep ≤ 2 ^ 28 * Nat.gcd (gridStep i) midpointStep ∨
    closeFractions (2 ^ 53) (gridStep i) midpointStep (2 ^ 25) 2000 0 1 1 0 =
      some (if i = 12 then [(22841339, 7038531)] else [])

instance (i : Nat) : Decidable (Settled i) := inferInstanceAs (Decidable (_ ∨ _))

/-- **The decimal grids, one by one.** -/
theorem settled_of_lt : ∀ i < 83, Settled i := by decide +kernel

/-- Multiples of two numbers with a large common factor are equal or far apart. -/
theorem not_close_of_gcd {p q : Nat} (wide : q ≤ 2 ^ 28 * Nat.gcd p q) (small : w < 2 ^ 25)
    (other : n * p ≠ w * q) : ¬Close (2 ^ 53) p q w n := by
  intro close
  have low := close.low
  have high := close.high
  have first : Nat.gcd p q ∣ n * p := Dvd.dvd.mul_left (Nat.gcd_dvd_left p q) n
  have second : Nat.gcd p q ∣ w * q := Dvd.dvd.mul_left (Nat.gcd_dvd_right p q) w
  have shared : 0 < Nat.gcd p q := by
    refine Nat.pos_of_ne_zero fun zero => other ?_
    rw [(Nat.gcd_eq_zero_iff.1 zero).1, (Nat.gcd_eq_zero_iff.1 zero).2]
    rfl
  have short : w * q < 2 ^ 53 * Nat.gcd p q := by
    calc w * q ≤ w * (2 ^ 28 * Nat.gcd p q) := Nat.mul_le_mul_left w wide
      _ < 2 ^ 25 * (2 ^ 28 * Nat.gcd p q) :=
        Nat.mul_lt_mul_of_pos_right small (Nat.mul_pos (by decide) shared)
      _ = 2 ^ 53 * Nat.gcd p q := by ring
  rcases Nat.lt_or_gt_of_ne other with below | above
  · have gap := Nat.le_of_dvd (Nat.sub_pos_of_lt below) (Nat.dvd_sub second first)
    omega
  · have gap := Nat.le_of_dvd (Nat.sub_pos_of_lt above) (Nat.dvd_sub first second)
    omega

/-- **The only fraction with a small numerator that is close to a quotient.**  The places beyond the least
ones go into the denominator, and the denominator of the listed fraction is odd. -/
theorem eq_of_close (grid : i < 83) (coarse : 7 * midpointStep < 4 * (tenTo i * twoTo u)) (positive : 0 < w)
    (small : w < 2 ^ 25) (close : Close (2 ^ 53) (tenTo i * twoTo u) midpointStep w n)
    (other : n * (tenTo i * twoTo u) ≠ w * midpointStep) : i = 12 ∧ u = 233 ∧ w = 22841339 ∧ n = 7038531 := by
  obtain ⟨r, rfl⟩ := Nat.exists_eq_add_of_le (leastPlaces_le coarse)
  have moved : n * (tenTo i * twoTo (leastPlaces i + r)) = n * twoTo r * gridStep i := by
    rw [twoTo_add, gridStep]
    ring
  have close' : Close (2 ^ 53) (gridStep i) midpointStep w (n * twoTo r) := by
    constructor
    · rw [← moved]
      exact close.low
    · rw [← moved]
      exact close.high
  rw [moved] at other
  rcases settled_of_lt i grid with wide | listed
  · exact absurd close' (not_close_of_gcd wide small other)
  have denominator : 0 < n * twoTo r := by
    refine Nat.pos_of_ne_zero fun zero => ?_
    have low := close'.low
    have top : 0 < w * midpointStep := Nat.mul_pos positive (Nat.mul_pos (tenTo_pos _) (twoTo_pos _))
    rw [zero] at low
    omega
  obtain ⟨f, mem, equal⟩ := exists_of_close (by decide) (by omega) (by omega) small close' listed
  split at mem
  · next known =>
    obtain rfl := List.mem_singleton.1 mem
    have divides : 22841339 ∣ w * 7038531 := Dvd.intro _ equal.symm
    obtain ⟨t, rfl⟩ := Nat.Coprime.dvd_of_dvd_mul_right (by decide) divides
    have first : t = 1 := by omega
    subst first
    have odd : n * twoTo r = 7038531 := by omega
    cases r with
    | zero =>
      rw [known]
      refine ⟨rfl, by decide, rfl, ?_⟩
      rwa [show twoTo 0 = 1 from rfl, Nat.mul_one] at odd
    | succ r =>
      rw [twoTo_succ, Nat.mul_left_comm] at odd
      omega
  · cases mem

/-! ### Decimals -/

/-- Half of the distance of two magnitudes of the 32-bit format that are shifted by `s` places. -/
def halfStep (s : Nat) : ℚ := twoTo s / twoTo 150

theorem halfStep_pos (s : Nat) : 0 < halfStep s :=
  div_pos (Nat.cast_pos.2 (twoTo_pos s)) (Nat.cast_pos.2 (twoTo_pos 150))

theorem halfStep_mono (le : s ≤ u) : halfStep s ≤ halfStep u := by
  have below : (twoTo s : ℚ) ≤ twoTo u := Nat.cast_le.2 (twoTo_le_twoTo le)
  exact div_le_div_of_nonneg_right below (Nat.cast_nonneg _)

theorem cast_tenTo (n : Nat) : (tenTo n : ℚ) = 10 ^ n := Nat.cast_pow 10 n

theorem cast_twoTo (n : Nat) : (twoTo n : ℚ) = 2 ^ n := Nat.cast_pow 2 n

/-- Half of a step, after multiplication with the common denominator. -/
theorem halfStep_scaled (places : s + u = 275) : halfStep s * (10 ^ 44 * 2 ^ u) = (midpointStep : ℚ) := by
  have total : (2 : ℚ) ^ s * 2 ^ u = 2 ^ 150 * 2 ^ 125 := by rw [← pow_add, places, ← pow_add]
  rw [halfStep, midpointStep, Nat.cast_mul, cast_tenTo, cast_twoTo, cast_twoTo, cast_twoTo]
  calc (2 : ℚ) ^ s / 2 ^ 150 * (10 ^ 44 * 2 ^ u) = 10 ^ 44 * (2 ^ s * 2 ^ u / 2 ^ 150) := by ring
    _ = 10 ^ 44 * 2 ^ 125 := by rw [total, mul_div_cancel_left₀ _ (by positivity)]

/-- A fraction is close to a quotient if the cross products are. -/
theorem close_of_abs {parts p q x y : Nat} (positive : 0 < parts)
    (near : (parts : ℚ) * |((y * p : Nat) : ℚ) - (x * q : Nat)| ≤ (x * q : Nat)) : Close parts p q x y := by
  have parts_nonneg : (0 : ℚ) ≤ parts := Nat.cast_nonneg parts
  have above := mul_le_mul_of_nonneg_left (le_abs_self (((y * p : Nat) : ℚ) - (x * q : Nat))) parts_nonneg
  have below := mul_le_mul_of_nonneg_left (neg_abs_le (((y * p : Nat) : ℚ) - (x * q : Nat))) parts_nonneg
  constructor
  · have low : ((parts - 1) * (x * q : Nat) : ℚ) ≤ parts * (y * p : Nat) := by linarith
    rw [← Nat.cast_pred positive] at low
    exact_mod_cast low
  · have high : (parts * (y * p : Nat) : ℚ) ≤ (parts + 1) * (x * q : Nat) := by linarith
    exact_mod_cast high

namespace Decimal

variable {d : Decimal}

/-- A grid that is coarse for some midpoints is not finer than `10 ^ -44`. -/
theorem le_exponent (coarse : 7 * halfStep s < 4 * 10 ^ d.exponent) : -44 ≤ d.exponent := by
  by_contra fine
  have power : (10 : ℚ) ^ d.exponent ≤ 10 ^ (-45 : Int) := zpow_le_zpow_right₀ (by norm_num) (by omega)
  have tiny : (10 : ℚ) ^ (-45 : Int) = 1 / 10 ^ 45 := by norm_num
  have least := halfStep_mono (Nat.zero_le s)
  have half : halfStep 0 = 1 / 2 ^ 150 := by
    rw [halfStep, cast_twoTo, cast_twoTo, pow_zero]
  have gap : 4 * (1 / 10 ^ 45 : ℚ) < 7 * (1 / 2 ^ 150) := by norm_num
  rw [tiny] at power
  rw [half] at least
  linarith

/-- The grid of a positive number that is not far above a midpoint is not coarser than `10 ^ 38`. -/
theorem exponent_le (shifted : s ≤ 253) (small : w < 2 ^ 25) (nonzero : d.significand ≠ 0)
    (bounded : d.value ≤ 2 * (w * halfStep s)) : d.exponent ≤ 38 := by
  by_contra large
  have power : (10 : ℚ) ^ (39 : Int) ≤ 10 ^ d.exponent := zpow_le_zpow_right₀ (by norm_num) (by omega)
  have most := halfStep_mono shifted
  have half : halfStep 253 = 2 ^ 103 := by
    rw [halfStep, cast_twoTo, cast_twoTo]
    norm_num
  have digits : (1 : ℚ) ≤ d.significand := Nat.one_le_cast.2 (Nat.pos_of_ne_zero nonzero)
  have numerator : (w : ℚ) ≤ 2 ^ 25 := by exact_mod_cast small.le
  have first : (10 : ℚ) ^ (39 : Int) ≤ d.value := by
    calc (10 : ℚ) ^ (39 : Int) ≤ 1 * 10 ^ d.exponent := by rwa [one_mul]
      _ ≤ d.value := mul_le_mul_of_nonneg_right digits (zpow_nonneg (by norm_num) _)
  have second : d.value ≤ 2 * (2 ^ 25 * 2 ^ 103) := by
    calc d.value ≤ 2 * (w * halfStep s) := bounded
      _ ≤ 2 * (2 ^ 25 * 2 ^ 103) := by
        rw [half] at most
        gcongr
        exact (halfStep_pos s).le
  have gap : (2 : ℚ) * (2 ^ 25 * 2 ^ 103) < 10 ^ (39 : Int) := by norm_num
  linarith

/-- What a grid is counted in, after multiplication with the common denominator. -/
theorem pow_exponent_scaled (exponent : d.exponent = i - 44) (u : Nat) :
    (10 : ℚ) ^ d.exponent * (10 ^ 44 * 2 ^ u) = (tenTo i * twoTo u : Nat) := by
  rw [exponent, zpow_sub₀ (by norm_num), zpow_natCast, Nat.cast_mul, cast_tenTo, cast_twoTo]
  field_simp

/-- **The only decimal next to a midpoint.**  The midpoint is `w` half steps, and the distance of the
decimal to it is too short for 53 binary digits. -/
theorem eq_of_near (shifted : s ≤ 253) (positive : 0 < w) (small : w < 2 ^ 25)
    (coarse : 7 * halfStep s < 4 * 10 ^ d.exponent)
    (near : 2 ^ 53 * |d.value - w * halfStep s| ≤ w * halfStep s)
    (other : d.value ≠ w * halfStep s) : d = ⟨7038531, -32⟩ ∧ w = 22841339 ∧ s = 42 := by
  have middle : 0 < w * halfStep s := mul_pos (Nat.cast_pos.2 positive) (halfStep_pos s)
  have above := le_abs_self (d.value - w * halfStep s)
  have below := neg_abs_le (d.value - w * halfStep s)
  have nonzero : d.significand ≠ 0 := by
    intro zero
    have none : d.value = 0 := by rw [value, zero, Nat.cast_zero, zero_mul]
    linarith
  have low := le_exponent coarse
  have high := exponent_le shifted small nonzero (by linarith)
  obtain ⟨i, exponent⟩ : ∃ i : Nat, d.exponent = i - 44 := ⟨(d.exponent + 44).toNat, by omega⟩
  obtain ⟨u, places⟩ : ∃ u, s + u = 275 := ⟨275 - s, by omega⟩
  -- the decimal and the midpoint become whole numbers
  have common : (0 : ℚ) < 10 ^ 44 * 2 ^ u := by positivity
  have ten := pow_exponent_scaled exponent u
  have two := halfStep_scaled places
  have decimal : d.value * (10 ^ 44 * 2 ^ u) = (d.significand * (tenTo i * twoTo u) : Nat) := by
    rw [value, mul_assoc, ten, ← Nat.cast_mul]
  have midpoint : w * halfStep s * (10 ^ 44 * 2 ^ u) = (w * midpointStep : Nat) := by
    rw [mul_assoc, two, ← Nat.cast_mul]
  have coarse' : 7 * midpointStep < 4 * (tenTo i * twoTo u) := by
    have scaled := mul_lt_mul_of_pos_right coarse common
    rw [mul_assoc, mul_assoc, ten, two] at scaled
    exact_mod_cast scaled
  have other' : d.significand * (tenTo i * twoTo u) ≠ w * midpointStep := by
    intro same
    rw [← same, ← decimal] at midpoint
    exact other (mul_right_cancel₀ common.ne' midpoint).symm
  have close : Close (2 ^ 53) (tenTo i * twoTo u) midpointStep w d.significand := by
    refine close_of_abs (by decide) ?_
    rw [← decimal, ← midpoint, ← sub_mul, abs_mul, abs_of_pos common, ← mul_assoc]
    exact mul_le_mul_of_nonneg_right (by exact_mod_cast near) common.le
  obtain ⟨rfl, rfl, rfl, significand⟩ := eq_of_close (by omega) coarse' positive small close other'
  refine ⟨?_, rfl, by omega⟩
  cases d
  cases significand
  cases exponent
  rfl

end Decimal

end ShaderDag
