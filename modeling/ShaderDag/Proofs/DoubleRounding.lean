import ShaderDag.Proofs.NearMiss

/-!
# Rounding twice

A number that is rounded to the 64-bit format first and to the 32-bit format then may end on another
magnitude than the nearest one: the first rounding may move it onto a midpoint, and a midpoint is rounded
to an even magnitude.  The midpoints of the 32-bit format are magnitudes of the 64-bit format, so the
first rounding does not move the number across one.  The decimal of an odd magnitude is moved onto a
midpoint only if it is next to it, which happens once.

* `BinaryFormat.nearest_iff_midpoint` — the nearest magnitude, by the midpoints next to it;
* `BinaryFormat.Nearest.close` — the distance to the nearest magnitude;
* `BinaryFormat.exists_midpoint` — the midpoints are magnitudes of the wider format;
* `BinaryFormat.nearest_of_nearest` — rounding twice, for a number that is not next to a midpoint;
* `BinaryFormat.nearest_reread` — rounding the decimal of a magnitude twice gives the magnitude, with one
  exception.
-/

namespace ShaderDag

namespace BinaryFormat

variable {f : BinaryFormat} {m n k : Nat} {q y : ℚ}

/-! ### Midpoints -/

theorem value_strictMono (f : BinaryFormat) : StrictMono f.value := by
  intro m n less
  have units : (f.units m : ℚ) < f.units n := Nat.cast_lt.2 (f.units_strictMono less)
  exact div_lt_div_of_pos_right units (Nat.cast_pos.2 (twoTo_pos _))

/-- The step from the value of a magnitude to the next one. -/
theorem value_succ (f : BinaryFormat) (m : Nat) :
    f.value (m + 1) = f.value m + twoTo (f.shift m) / twoTo f.unitExponent := by
  rw [value, value, units_succ, Nat.cast_add, add_div]

/-- The number half way between a magnitude and the next one. -/
def midpoint (f : BinaryFormat) (k : Nat) : ℚ := (f.value k + f.value (k + 1)) / 2

theorem mean_lt_iff {a b : ℚ} (less : a < b) : (a + b) / 2 < y ↔ |y - b| < |y - a| := by
  rw [div_lt_iff₀' (by norm_num)]
  refine ⟨abs_sub_lt_of_add_lt less, fun near => ?_⟩
  rcases lt_trichotomy (a + b) (2 * y) with past | mid | before
  · exact past
  · exact absurd (abs_sub_eq_of_add_eq mid) near.ne'
  · exact absurd (abs_sub_lt_of_lt_add less before) near.le.not_gt

theorem lt_mean_iff {a b : ℚ} (less : a < b) : y < (a + b) / 2 ↔ |y - a| < |y - b| := by
  rw [lt_div_iff₀' (by norm_num)]
  refine ⟨abs_sub_lt_of_lt_add less, fun near => ?_⟩
  rcases lt_trichotomy (a + b) (2 * y) with past | mid | before
  · exact absurd (abs_sub_lt_of_add_lt less past) near.le.not_gt
  · exact absurd (abs_sub_eq_of_add_eq mid) near.ne
  · exact before

theorem mean_eq_iff {a b : ℚ} (less : a < b) : (a + b) / 2 = y ↔ |y - a| = |y - b| := by
  refine ⟨fun mid => abs_sub_eq_of_add_eq (by linarith), fun same => ?_⟩
  rcases lt_trichotomy ((a + b) / 2) y with past | mid | before
  · exact absurd same ((mean_lt_iff less).1 past).ne'
  · exact mid
  · exact absurd same ((lt_mean_iff less).1 before).ne

/-- **The nearest magnitude, by the midpoints next to it.** -/
theorem nearest_iff_midpoint (le : m ≤ f.infinity) : f.Nearest q m ↔
    (∀ k, k + 1 = m → f.midpoint k < q ∨ f.midpoint k = q ∧ Even m) ∧
      (m < f.infinity → q < f.midpoint m ∨ q = f.midpoint m ∧ Even m) := by
  unfold midpoint
  constructor
  · intro nearest
    refine ⟨fun k next => ?_, fun finite => ?_⟩
    · subst next
      have less := f.value_strictMono (Nat.lt_add_one k)
      exact (nearest.2 k (by omega) (by omega)).imp (mean_lt_iff less).2
        fun ⟨same, even, _⟩ => ⟨(mean_eq_iff less).2 same.symm, even⟩
    · have less := f.value_strictMono (Nat.lt_add_one m)
      exact (nearest.2 (m + 1) finite (by omega)).imp (lt_mean_iff less).2
        fun ⟨same, even, _⟩ => ⟨((mean_eq_iff less).2 same).symm, even⟩
  · rintro ⟨low, high⟩
    have unit_pos : (0 : ℚ) < twoTo f.unitExponent := Nat.cast_pos.2 (twoTo_pos _)
    have units : ∀ n, (f.units n : ℚ) = f.value n * twoTo f.unitExponent := fun n => by
      rw [value, div_mul_cancel₀ _ unit_pos.ne']
    have between : f.Between (q * twoTo f.unitExponent) m := by
      refine ⟨fun k next => ?_, fun finite => ?_⟩
      · rw [units, units, ← add_mul, ← mul_assoc]
        refine (low k next).imp (fun less => ?_) (And.imp_left fun mid => ?_)
        · subst next
          exact mul_lt_mul_of_pos_right (by linarith) unit_pos
        · subst next
          rw [← mid, mul_div_cancel₀ _ (by norm_num)]
      · rw [units, units, ← add_mul, ← mul_assoc]
        refine (high finite).imp (fun less => ?_) (And.imp_left fun mid => ?_)
        · exact mul_lt_mul_of_pos_right (by linarith) unit_pos
        · rw [mid, mul_div_cancel₀ _ (by norm_num)]
    have nearest := nearest_of_between le between
    rwa [mul_div_cancel_right₀ _ unit_pos.ne'] at nearest

/-- A magnitude that is not above a number is not above the nearest one. -/
theorem Nearest.le_of_value_le (nearest : f.Nearest q m) (le : n ≤ f.infinity) (below : f.value n ≤ q) :
    n ≤ m := by
  by_contra above
  have less := f.value_strictMono (Nat.lt_of_not_le above)
  have farther := abs_sub_lt_of_add_lt (y := q) less (by linarith)
  rcases nearest.2 n le (by omega) with near | ⟨same, -⟩
  · exact absurd near farther.le.not_gt
  · exact absurd same farther.ne'

/-- A magnitude that is not below a number is not below the nearest one. -/
theorem Nearest.le_of_le_value (nearest : f.Nearest q m) (le : n ≤ f.infinity) (above : q ≤ f.value n) :
    m ≤ n := by
  by_contra below
  have less := f.value_strictMono (Nat.lt_of_not_le below)
  have farther := abs_sub_lt_of_lt_add (y := q) less (by linarith)
  rcases nearest.2 n le (by omega) with near | ⟨same, -⟩
  · exact absurd near farther.le.not_gt
  · exact absurd same farther.ne'

/-- **The distance to the nearest magnitude** is half a unit in its last place at most. -/
theorem Nearest.close (nearest : f.Nearest q m) (normal : f.fractionRange ≤ m) (finite : m < f.infinity) :
    2 * f.fractionRange * |q - f.value m| ≤ f.value m := by
  have positive := f.fractionRange_pos
  obtain ⟨low, high⟩ := (nearest_iff_midpoint finite.le).1 nearest
  obtain ⟨k, rfl⟩ : ∃ k, m = k + 1 := ⟨m - 1, by omega⟩
  have below : f.midpoint k ≤ q := (low k rfl).elim le_of_lt fun mid => mid.1.le
  have above : q ≤ f.midpoint (k + 1) := (high finite).elim le_of_lt fun mid => mid.1.le
  have before := f.value_succ k
  have past := f.value_succ (k + 1)
  have places : f.shift k ≤ f.shift (k + 1) :=
    Nat.sub_le_sub_right (Nat.div_le_div_right (Nat.le_succ k)) 1
  have steps : (twoTo (f.shift k) / twoTo f.unitExponent : ℚ)
      ≤ twoTo (f.shift (k + 1)) / twoTo f.unitExponent :=
    div_le_div_of_nonneg_right (Nat.cast_le.2 (twoTo_le_twoTo places)) (Nat.cast_nonneg _)
  have full : f.fractionRange ≤ f.significand (k + 1) := by
    rw [significand, if_neg (by omega)]
    exact Nat.le_add_right _ _
  have size : (f.fractionRange * (twoTo (f.shift (k + 1)) / twoTo f.unitExponent) : ℚ) ≤ f.value (k + 1) := by
    rw [value, units, Nat.cast_mul, mul_div_assoc]
    exact mul_le_mul_of_nonneg_right (Nat.cast_le.2 full) (div_nonneg (Nat.cast_nonneg _) (Nat.cast_nonneg _))
  generalize (twoTo (f.shift (k + 1)) / twoTo f.unitExponent : ℚ) = step at *
  have half : |q - f.value (k + 1)| ≤ step / 2 := by
    unfold midpoint at below above
    exact abs_le.2 ⟨by linarith, by linarith⟩
  calc 2 * f.fractionRange * |q - f.value (k + 1)| ≤ 2 * f.fractionRange * (step / 2) :=
        mul_le_mul_of_nonneg_left half (by positivity)
    _ = f.fractionRange * step := by ring
    _ ≤ f.value (k + 1) := size

/-! ### Midpoints of the narrow format in the wide one -/

/-- A multiple of a power of two with a small factor is a magnitude. -/
theorem exists_units (le : k ≤ 2 * f.fractionRange) (a : Nat) : ∃ m, f.units m = k * twoTo a := by
  induction a generalizing k with
  | zero => exact ⟨_, units_scaled (.inl rfl) le⟩
  | succ a ih =>
    by_cases full : f.fractionRange ≤ k
    · exact ⟨_, units_scaled (.inr full) le⟩
    · obtain ⟨m, same⟩ := ih (k := 2 * k) (by omega)
      exact ⟨m, by rw [same, twoTo_succ, Nat.mul_left_comm, Nat.mul_assoc]⟩

theorem step_eq_halfStep (a : Nat) : (twoTo a / twoTo single.unitExponent : ℚ) = 2 * halfStep a := by
  have unit : single.unitExponent + 1 = 150 := rfl
  rw [halfStep, ← unit, twoTo_succ, Nat.cast_mul, Nat.cast_ofNat]
  field_simp

/-- The magnitudes on both sides of a midpoint are half a step away from it. -/
theorem value_eq_midpoint (k : Nat) :
    single.value k = single.midpoint k - halfStep (single.shift k) ∧
      single.value (k + 1) = single.midpoint k + halfStep (single.shift k) := by
  have next := single.value_succ k
  rw [step_eq_halfStep] at next
  unfold midpoint
  constructor
  · linarith
  · linarith

theorem abs_value_sub_midpoint (next : k = m ∨ k + 1 = m) :
    |single.value m - single.midpoint k| = halfStep (single.shift k) := by
  have half_pos := halfStep_pos (single.shift k)
  obtain ⟨below, above⟩ := value_eq_midpoint k
  rcases next with rfl | rfl
  · rw [below, sub_sub_cancel_left, abs_neg, abs_of_pos half_pos]
  · rw [above, add_sub_cancel_left, abs_of_pos half_pos]

/-- A midpoint of the 32-bit format is an odd number of half steps. -/
theorem midpoint_single (k : Nat) :
    single.midpoint k = (2 * single.significand k + 1 : Nat) * halfStep (single.shift k) := by
  have below := (value_eq_midpoint k).1
  rw [value, units, Nat.cast_mul, mul_div_assoc, step_eq_halfStep] at below
  push_cast
  linarith

theorem shift_le_of_lt (finite : k < single.infinity) : single.shift k ≤ 253 := by
  have bound : single.infinity = 255 * single.fractionRange := rfl
  have quotient : k / single.fractionRange < 255 := by
    rw [Nat.div_lt_iff_lt_mul single.fractionRange_pos, ← bound]
    exact finite
  rw [shift]
  omega

theorem significand_lt (k : Nat) : 2 * single.significand k + 1 < 2 ^ 25 := by
  have below := (single.magnitude_eq k).2.1
  have range : single.fractionRange = 2 ^ 23 := rfl
  omega

theorem units_infinity_double : double.units double.infinity = twoTo (52 + 2046) := by
  have top : double.infinity = (2046 + 1) * double.fractionRange + 0 := rfl
  have range : double.fractionRange = twoTo 52 := rfl
  rw [top, units_normal 2046 double.fractionRange_pos, range, Nat.add_zero (twoTo 52), ← twoTo_add]

/-- **The midpoints are magnitudes of the wider format**, of full precision and finite. -/
theorem exists_midpoint (finite : k < single.infinity) :
    ∃ m, double.fractionRange ≤ m ∧ m < double.infinity ∧ double.value m = single.midpoint k := by
  have shifted := shift_le_of_lt finite
  have small := significand_lt k
  have range : double.fractionRange = twoTo 52 := rfl
  have unit : double.unitExponent = 150 + 924 := rfl
  obtain ⟨m, units⟩ := exists_units (f := double) (k := 2 * single.significand k + 1)
    (by rw [range]; exact Nat.le_trans small.le (by decide)) (single.shift k + 924)
  refine ⟨m, ?_, ?_, ?_⟩
  · by_contra low
    rw [units_of_lt (Nat.lt_of_not_le low)] at units
    have large : twoTo 52 ≤ twoTo (single.shift k + 924) := twoTo_le_twoTo (by omega)
    have whole : twoTo (single.shift k + 924) ≤ m := by
      rw [units]
      exact Nat.le_mul_of_pos_left _ (by omega)
    omega
  · rw [← double.units_strictMono.lt_iff_lt, units, units_infinity_double]
    calc (2 * single.significand k + 1) * twoTo (single.shift k + 924)
        < twoTo 25 * twoTo (single.shift k + 924) := Nat.mul_lt_mul_of_pos_right small (twoTo_pos _)
      _ = twoTo (25 + (single.shift k + 924)) := (twoTo_add _ _).symm
      _ ≤ twoTo (52 + 2046) := twoTo_le_twoTo (by omega)
  · have place_pos : (0 : ℚ) < twoTo 924 := Nat.cast_pos.2 (twoTo_pos _)
    rw [value, units, midpoint_single, halfStep, unit, twoTo_add, twoTo_add, Nat.cast_mul, Nat.cast_mul,
      Nat.cast_mul (twoTo 150), ← mul_assoc, mul_div_mul_right _ _ place_pos.ne', mul_div_assoc]

/-! ### Rounding twice -/

/-- A number is next to a midpoint without being the midpoint: the wider format cannot tell the two apart. -/
def NextTo (q : ℚ) (k : Nat) : Prop :=
  q ≠ single.midpoint k ∧ 2 ^ 53 * |q - single.midpoint k| ≤ single.midpoint k

variable {D : Nat}

/-- What is rounded to a midpoint is the midpoint or is next to it. -/
theorem nextTo_of_nearest (finite : k < single.infinity) (rounded : double.Nearest q D)
    (moved : double.value D = single.midpoint k) (other : q ≠ single.midpoint k) : NextTo q k := by
  obtain ⟨m, normal, bounded, same⟩ := exists_midpoint finite
  obtain rfl : D = m := double.value_strictMono.injective (moved.trans same.symm)
  have close := rounded.close normal bounded
  have range : (2 * double.fractionRange : ℚ) = 2 ^ 53 := by
    have whole : 2 * double.fractionRange = 2 ^ 53 := rfl
    exact_mod_cast whole
  rw [range, moved] at close
  exact ⟨other, close⟩

/-- **Rounding twice.**  The first rounding does not move a number across the midpoints next to its
magnitude, and it moves the number onto one only if it is next to it, which does not matter for an even
magnitude. -/
theorem nearest_of_nearest (finite : m < single.infinity) (nearest : single.Nearest q m)
    (rounded : double.Nearest q D)
    (apart : ∀ k, k = m ∨ k + 1 = m → NextTo q k → Even m) :
    D < double.infinity ∧ single.Nearest (double.value D) m := by
  obtain ⟨low, high⟩ := (nearest_iff_midpoint finite.le).1 nearest
  obtain ⟨top, -, bounded, same⟩ := exists_midpoint finite
  have above : q ≤ single.midpoint m := (high finite).elim le_of_lt fun mid => mid.1.le
  have under : D ≤ top := rounded.le_of_le_value bounded.le (by rwa [same])
  refine ⟨by omega, (nearest_iff_midpoint finite.le).2 ⟨fun k next => ?_, fun _ => ?_⟩⟩
  · obtain ⟨bottom, -, bounded', same'⟩ := exists_midpoint (k := k) (by omega)
    have below : single.midpoint k ≤ q := (low k next).elim le_of_lt fun mid => mid.1.le
    have reached : bottom ≤ D := rounded.le_of_value_le bounded'.le (by rwa [same'])
    have ordered := double.value_strictMono.monotone reached
    rw [same'] at ordered
    refine ordered.lt_or_eq.imp_right fun mid => ⟨mid, ?_⟩
    rcases low k next with less | ⟨-, even⟩
    · exact apart k (.inr next) (nextTo_of_nearest (by omega) rounded mid.symm less.ne')
    · exact even
  · have ordered := double.value_strictMono.monotone under
    rw [same] at ordered
    refine ordered.lt_or_eq.imp_right fun mid => ⟨mid, ?_⟩
    rcases high finite with less | ⟨-, even⟩
    · exact apart m (.inl rfl) (nextTo_of_nearest finite rounded mid less.ne)
    · exact even

/-- The magnitude whose decimal is next to a midpoint, `7.038531e-26`. -/
def lostMagnitude : Nat := 0x15ae43fd

/-- **The decimals of odd magnitudes are not next to midpoints**, with one exception. -/
theorem not_nextTo_shortest (finite : m < single.infinity) (odd : ¬Even m) (other : m ≠ lostMagnitude)
    (next : k = m ∨ k + 1 = m) : ¬NextTo (single.shortest .up m).value k := by
  rintro ⟨apart, near⟩
  have rounds := single.rounds_shortest (even_fractionRange (by decide)) .up odd
  generalize single.shortest .up m = d at *
  have small := significand_lt k
  have half_pos := halfStep_pos (single.shift k)
  have detour := abs_sub_le (single.value m) d.value (single.midpoint k)
  rw [abs_value_sub_midpoint next, abs_sub_comm] at detour
  rw [midpoint_single] at apart near detour
  have numerator : ((2 * single.significand k + 1 : Nat) : ℚ) ≤ 2 ^ 25 := by exact_mod_cast small.le
  have size := mul_le_mul_of_nonneg_right numerator half_pos.le
  -- next to the midpoint the decimal is half a step away from the magnitude, and its grid is as coarse
  -- as that
  have coarse : 7 * halfStep (single.shift k) < 4 * 10 ^ d.exponent := by linarith
  obtain ⟨-, significand, shift⟩ :=
    Decimal.eq_of_near (shift_le_of_lt (by omega)) (Nat.succ_pos _) small coarse near apart
  -- the exception lies below its midpoint, since the magnitude above is even
  have place := (single.magnitude_eq k).1
  have range : single.fractionRange = 8388608 := rfl
  rw [shift, range] at place
  rcases next with rfl | rfl
  · exact other (by rw [lostMagnitude]; omega)
  · exact odd (Nat.even_iff.2 (by omega))

/-- **Rounding the decimal of a magnitude twice gives the magnitude**, with one exception. -/
theorem nearest_reread (finite : m < single.infinity) (other : m ≠ lostMagnitude)
    (rounded : double.Nearest (single.shortest .up m).value D) :
    D < double.infinity ∧ single.Nearest (double.value D) m := by
  refine nearest_of_nearest finite (nearest_shortest (even_fractionRange (by decide)) .up finite.le)
    rounded ?_
  intro k next nextTo
  by_contra odd
  exact not_nextTo_shortest finite odd other next nextTo

end BinaryFormat

end ShaderDag
