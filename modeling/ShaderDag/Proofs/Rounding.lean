import Mathlib.Algebra.Order.Field.Basic
import Mathlib.Algebra.Order.Field.Rat
import Mathlib.Algebra.Ring.Parity
import Mathlib.Order.Monotone.Basic
import Mathlib.Tactic.FieldSimp
import Mathlib.Tactic.Linarith
import Mathlib.Tactic.Ring
import ShaderDag.Number.Binary

/-!
# Rounding to a binary format

The magnitudes of a format lie on a grid whose step doubles from one binade to the next.  A number is nearest
to a magnitude if it lies between the two midpoints next to it, and a midpoint itself belongs to the even one
of its neighbours.

* `BinaryFormat.units_succ` — the step from a magnitude to the next one; `units_strictMono`;
* `BinaryFormat.Nearest` — what a number is rounded to, as a statement about distances; `Nearest.unique`;
* `BinaryFormat.Between`, `nearest_of_between` — the same between midpoints;
* `BinaryFormat.nearest_round` — the rounding of the library gives the nearest magnitude.
-/

namespace ShaderDag

namespace BinaryFormat

variable {f : BinaryFormat} {m n k a : Nat} {q y : ℚ}

/-! ### The grid -/

theorem twoTo_pos (n : Nat) : 0 < twoTo n := Nat.two_pow_pos n

theorem twoTo_succ (n : Nat) : twoTo (n + 1) = 2 * twoTo n := by
  show 2 ^ (n + 1) = 2 * 2 ^ n
  rw [Nat.pow_succ, Nat.mul_comm]

theorem twoTo_add (m n : Nat) : twoTo (m + n) = twoTo m * twoTo n := Nat.pow_add 2 m n

theorem twoTo_le_twoTo (le : m ≤ n) : twoTo m ≤ twoTo n := Nat.pow_le_pow_right (by decide) le

theorem fractionRange_pos (f : BinaryFormat) : 0 < f.fractionRange := twoTo_pos _

theorem even_fractionRange (wide : 0 < f.fractionBits) : Even f.fractionRange := by
  obtain ⟨b, same⟩ := Nat.exists_eq_add_of_lt wide
  rw [fractionRange, same, twoTo_succ]
  exact even_two_mul _

/-- A magnitude is a significand on top of its binades; the significand is full except in the lowest one. -/
theorem magnitude_eq (f : BinaryFormat) (m : Nat) : m = f.shift m * f.fractionRange + f.significand m ∧
    f.significand m < 2 * f.fractionRange ∧ (f.shift m = 0 ∨ f.fractionRange ≤ f.significand m) := by
  have positive := f.fractionRange_pos
  have split := Nat.div_add_mod' m f.fractionRange
  have below := Nat.mod_lt m positive
  rw [shift, significand]
  by_cases lowest : m < f.fractionRange
  · rw [if_pos lowest, Nat.div_eq_of_lt lowest]
    omega
  · have binade : 0 < m / f.fractionRange := Nat.div_pos (by omega) positive
    obtain ⟨b, same⟩ : ∃ b, m / f.fractionRange = b + 1 := ⟨m / f.fractionRange - 1, by omega⟩
    rw [if_neg lowest, same, Nat.add_sub_cancel]
    rw [same, Nat.add_mul] at split
    omega

theorem units_of_lt (small : k < f.fractionRange) : f.units k = k := by
  rw [units, significand, if_pos small, shift, Nat.div_eq_of_lt small]
  exact Nat.mul_one k

theorem units_normal (b : Nat) (below : k < f.fractionRange) :
    f.units ((b + 1) * f.fractionRange + k) = (f.fractionRange + k) * twoTo b := by
  have past : ¬(b + 1) * f.fractionRange + k < f.fractionRange := by
    rw [Nat.add_mul]
    omega
  have quotient : ((b + 1) * f.fractionRange + k) / f.fractionRange = b + 1 := by
    rw [Nat.add_comm, Nat.add_mul_div_right _ _ f.fractionRange_pos, Nat.div_eq_of_lt below, Nat.zero_add]
  have remainder : ((b + 1) * f.fractionRange + k) % f.fractionRange = k := by
    rw [Nat.add_comm, Nat.add_mul_mod_self_right, Nat.mod_eq_of_lt below]
  rw [units, significand, if_neg past, shift, quotient, remainder, Nat.add_sub_cancel]

/-- The value of a significand on top of some binades.  It may be one past the last significand, which gives
the first magnitude of the next binade. -/
theorem units_scaled (full : a = 0 ∨ f.fractionRange ≤ k) (le : k ≤ 2 * f.fractionRange) :
    f.units (a * f.fractionRange + k) = k * twoTo a := by
  by_cases small : k < f.fractionRange
  · have lowest : a = 0 := full.resolve_right (by omega)
    rw [lowest, Nat.zero_mul, Nat.zero_add, units_of_lt small]
    exact (Nat.mul_one k).symm
  · by_cases last : k < 2 * f.fractionRange
    · have normal := units_normal (f := f) (k := k - f.fractionRange) a (by omega)
      have place : (a + 1) * f.fractionRange + (k - f.fractionRange) = a * f.fractionRange + k := by
        rw [Nat.add_mul]
        omega
      have whole : f.fractionRange + (k - f.fractionRange) = k := by omega
      rwa [place, whole] at normal
    · have normal := units_normal (f := f) (a + 1) f.fractionRange_pos
      have top : k = 2 * f.fractionRange := by omega
      have place : (a + 1 + 1) * f.fractionRange + 0 = a * f.fractionRange + k := by
        rw [Nat.add_mul, Nat.add_mul]
        omega
      rw [place, Nat.add_zero, twoTo_succ] at normal
      rw [normal, top]
      ring

/-- **The step from a magnitude to the next one.** -/
theorem units_succ (f : BinaryFormat) (m : Nat) : f.units (m + 1) = f.units m + twoTo (f.shift m) := by
  obtain ⟨split, below, full⟩ := f.magnitude_eq m
  have next := units_scaled (f := f) (a := f.shift m) (k := f.significand m + 1) (by omega) (by omega)
  rw [← Nat.add_assoc, ← split] at next
  rw [next, units, Nat.add_mul, Nat.one_mul]

theorem units_strictMono (f : BinaryFormat) : StrictMono f.units := by
  refine strictMono_nat_of_lt_succ fun m => ?_
  have positive := twoTo_pos (f.shift m)
  rw [units_succ]
  omega

/-- Magnitudes and their significands are even together. -/
theorem even_significand_iff (wide : Even f.fractionRange) (m : Nat) : Even (f.significand m) ↔ Even m := by
  obtain ⟨split, -⟩ := f.magnitude_eq m
  have binades : Even (f.shift m * f.fractionRange) := wide.mul_left _
  conv_rhs => rw [split]
  rw [Nat.even_add]
  exact (iff_true_left binades).symm

/-! ### The nearest magnitude -/

/-- The value of a magnitude. -/
def value (f : BinaryFormat) (m : Nat) : ℚ := f.units m / twoTo f.unitExponent

/-- The magnitude is nearest to a number: every other one is farther away, or it is as far and odd and this
one is even.  Infinity counts as the number that its pattern would stand for. -/
def Nearest (f : BinaryFormat) (q : ℚ) (m : Nat) : Prop :=
  m ≤ f.infinity ∧ ∀ n ≤ f.infinity, n ≠ m →
    |q - f.value m| < |q - f.value n| ∨ |q - f.value m| = |q - f.value n| ∧ Even m ∧ ¬Even n

/-- **There is at most one nearest magnitude.** -/
theorem Nearest.unique (h : f.Nearest q m) (h' : f.Nearest q n) : m = n := by
  by_contra other
  rcases h.2 n h'.1 (Ne.symm other) with less | ⟨same, -, odd⟩
  · rcases h'.2 m h.1 other with less' | ⟨same', -⟩
    · linarith
    · linarith
  · rcases h'.2 m h.1 other with less' | ⟨-, even, -⟩
    · linarith
    · exact odd even

/-- A number, counted in units, lies between the midpoints next to a magnitude.  A midpoint counts if the
magnitude is even.  There is no midpoint above infinity. -/
structure Between (f : BinaryFormat) (y : ℚ) (m : Nat) : Prop where
  low : ∀ k, k + 1 = m → (f.units k + f.units m : ℚ) < 2 * y ∨ (f.units k + f.units m : ℚ) = 2 * y ∧ Even m
  high : m < f.infinity →
    2 * y < (f.units m + f.units (m + 1) : ℚ) ∨ 2 * y = (f.units m + f.units (m + 1) : ℚ) ∧ Even m

/-- What is rounded to a magnitude past infinity is rounded to infinity. -/
theorem Between.of_le (h : f.Between y m) (le : f.infinity ≤ m) : f.Between y f.infinity := by
  refine ⟨fun k next => ?_, fun finite => absurd finite (Nat.lt_irrefl _)⟩
  rcases Nat.eq_or_lt_of_le le with same | past
  · rw [same] at next ⊢
    exact h.low k next
  · left
    obtain ⟨n, rfl⟩ : ∃ n, m = n + 1 := ⟨m - 1, by omega⟩
    have first : (f.units k : ℚ) < f.units f.infinity := Nat.cast_lt.2 (f.units_strictMono (by omega))
    have second : (f.units f.infinity : ℚ) ≤ f.units n :=
      Nat.cast_le.2 (f.units_strictMono.monotone (by omega))
    have third : (f.units n : ℚ) < f.units (n + 1) := Nat.cast_lt.2 (f.units_strictMono (by omega))
    rcases h.low n rfl with less | ⟨mid, -⟩
    · linarith
    · linarith

theorem abs_sub_lt_of_add_lt {a b : ℚ} (less : a < b) (past : a + b < 2 * y) : |y - b| < |y - a| := by
  rw [abs_lt, abs_of_pos (by linarith)]
  constructor
  · linarith
  · linarith

theorem abs_sub_lt_of_lt_add {a b : ℚ} (less : a < b) (before : 2 * y < a + b) : |y - a| < |y - b| := by
  rw [abs_lt, abs_of_neg (by linarith)]
  constructor
  · linarith
  · linarith

theorem abs_sub_eq_of_add_eq {a b : ℚ} (mid : a + b = 2 * y) : |y - a| = |y - b| := by
  have opposite : y - a = -(y - b) := by linarith
  rw [opposite, abs_neg]

/-- **What lies between the midpoints next to a magnitude is nearest to it.** -/
theorem nearest_of_between (le : m ≤ f.infinity) (h : f.Between y m) :
    f.Nearest (y / twoTo f.unitExponent) m := by
  have positive : (0 : ℚ) < twoTo f.unitExponent := Nat.cast_pos.2 (twoTo_pos _)
  have mono : ∀ {a b : Nat}, a < b → (f.units a : ℚ) < f.units b :=
    fun less => Nat.cast_lt.2 (f.units_strictMono less)
  -- distances are compared in units
  have scaled : ∀ n, |y / twoTo f.unitExponent - f.value n| = |y - f.units n| / twoTo f.unitExponent := by
    intro n
    rw [value, ← sub_div, abs_div, abs_of_pos positive]
  refine ⟨le, fun n le' other => ?_⟩
  rw [scaled, scaled, div_lt_div_iff_of_pos_right positive, div_left_inj' positive.ne']
  rcases Nat.lt_or_gt_of_ne other with before | past
  · obtain ⟨k, rfl⟩ : ∃ k, m = k + 1 := ⟨m - 1, by omega⟩
    by_cases next : n = k
    · subst next
      rcases h.low n rfl with less | ⟨mid, even⟩
      · exact .inl (abs_sub_lt_of_add_lt (mono before) less)
      · exact .inr ⟨(abs_sub_eq_of_add_eq mid).symm, even, by rwa [Nat.even_add_one] at even⟩
    · have farther : (f.units n : ℚ) < f.units k := mono (by omega)
      have low : (f.units k + f.units (k + 1) : ℚ) ≤ 2 * y := by
        rcases h.low k rfl with less | ⟨mid, -⟩
        · exact less.le
        · exact mid.le
      exact .inl (abs_sub_lt_of_add_lt (mono before) (by linarith))
  · have finite : m < f.infinity := by omega
    by_cases next : n = m + 1
    · subst next
      rcases h.high finite with less | ⟨mid, even⟩
      · exact .inl (abs_sub_lt_of_lt_add (mono past) less)
      · exact .inr ⟨abs_sub_eq_of_add_eq mid.symm, even, by rwa [Nat.even_add_one, not_not]⟩
    · have farther : (f.units (m + 1) : ℚ) < f.units n := mono (by omega)
      have high : 2 * y ≤ (f.units m + f.units (m + 1) : ℚ) := by
        rcases h.high finite with less | ⟨mid, -⟩
        · exact less.le
        · exact mid.le
      exact .inl (abs_sub_lt_of_lt_add (mono past) (by linarith))

/-! ### The rounding of the library -/

/-- A quotient is rounded to a whole number not farther away than a half, and to an even one at a half. -/
theorem roundHalfEven_spec (num : Nat) {den : Nat} (positive : 0 < den) :
    num / den ≤ roundHalfEven num den ∧
    (2 * (roundHalfEven num den * den) < 2 * num + den ∨
      2 * (roundHalfEven num den * den) = 2 * num + den ∧ Even (roundHalfEven num den)) ∧
    (2 * num < (2 * roundHalfEven num den + 1) * den ∨
      2 * num = (2 * roundHalfEven num den + 1) * den ∧ Even (roundHalfEven num den)) := by
  have split := Nat.div_add_mod' num den
  have below := Nat.mod_lt num positive
  unfold roundHalfEven
  dsimp only
  generalize num / den = quotient at *
  generalize num % den = rest at *
  split
  · next down =>
    rw [Nat.even_iff, Nat.add_mul, Nat.mul_assoc, Nat.one_mul]
    omega
  · next up =>
    rw [Nat.even_iff, Nat.add_mul, Nat.add_mul, Nat.mul_assoc, Nat.add_mul, Nat.one_mul]
    omega

/-- What is rounded on a grid of powers of two: the places are right for the number, and its whole part on
the grid is a significand. -/
theorem significand_bounds (f : BinaryFormat) (scaled : Nat) {den : Nat} (positive : 0 < den) :
    scaled < den * twoTo ((scaled / den).log2 - f.fractionBits) * (2 * f.fractionRange) ∧
      ((scaled / den).log2 - f.fractionBits = 0 ∨
        f.fractionRange * (den * twoTo ((scaled / den).log2 - f.fractionBits)) ≤ scaled) := by
  generalize logged : (scaled / den).log2 = log
  have top : scaled / den < twoTo (log + 1) := by
    rw [← logged]
    exact Nat.lt_log2_self
  constructor
  · have fits : twoTo (log + 1) ≤ twoTo (log - f.fractionBits) * (2 * f.fractionRange) := by
      rw [fractionRange, ← twoTo_succ, ← twoTo_add]
      exact twoTo_le_twoTo (by omega)
    rw [Nat.div_lt_iff_lt_mul positive, Nat.mul_comm] at top
    rw [Nat.mul_assoc]
    exact Nat.lt_of_lt_of_le top (Nat.mul_le_mul_left den fits)
  · by_cases lowest : log - f.fractionBits = 0
    · exact .inl lowest
    · have nonzero : scaled / den ≠ 0 := by
        intro zero
        rw [zero, Nat.log2_zero] at logged
        omega
      have full : twoTo log ≤ scaled / den := by
        rw [← logged]
        exact Nat.log2_self_le nonzero
      have places : f.fractionBits + (log - f.fractionBits) = log := by omega
      rw [Nat.le_div_iff_mul_le positive, ← places, twoTo_add] at full
      right
      rw [fractionRange]
      rwa [Nat.mul_comm den, ← Nat.mul_assoc]

/-- Midpoints are compared with a quotient in whole numbers. -/
theorem between_div {scaled den : Nat} (positive : 0 < den)
    (low : ∀ k, k + 1 = m → (f.units k + f.units m) * den < 2 * scaled ∨
      (f.units k + f.units m) * den = 2 * scaled ∧ Even m)
    (high : m < f.infinity → 2 * scaled < (f.units m + f.units (m + 1)) * den ∨
      2 * scaled = (f.units m + f.units (m + 1)) * den ∧ Even m) : f.Between (scaled / den) m := by
  have den_pos : (0 : ℚ) < den := Nat.cast_pos.2 positive
  have less : ∀ u : Nat, u * den < 2 * scaled → (u : ℚ) < 2 * (scaled / den) := by
    intro u h
    rw [← mul_div_assoc, lt_div_iff₀ den_pos]
    exact_mod_cast h
  have more : ∀ u : Nat, 2 * scaled < u * den → 2 * (scaled / den) < (u : ℚ) := by
    intro u h
    rw [← mul_div_assoc, div_lt_iff₀ den_pos]
    exact_mod_cast h
  have equal : ∀ u : Nat, u * den = 2 * scaled → (u : ℚ) = 2 * (scaled / den) := by
    intro u h
    rw [← mul_div_assoc, eq_div_iff den_pos.ne']
    exact_mod_cast h
  constructor
  · intro k next
    rw [← Nat.cast_add]
    exact (low k next).imp (less _) (And.imp_left (equal _))
  · intro finite
    rw [← Nat.cast_add]
    exact (high finite).imp (more _) (And.imp_left fun h => (equal _ h.symm).symm)

/-- **The number lies between the midpoints next to what it is rounded to**, if the format goes on forever. -/
theorem between_round (wide : Even f.fractionRange) (scaled : Nat) {den places : Nat} (positive : 0 < den)
    (placed : places = (scaled / den).log2 - f.fractionBits) :
    f.Between (scaled / den) (places * f.fractionRange + roundHalfEven scaled (den * twoTo places)) := by
  have step_pos : 0 < den * twoTo places := Nat.mul_pos positive (twoTo_pos _)
  obtain ⟨below, full⟩ := f.significand_bounds scaled positive
  obtain ⟨floor, low, high⟩ := roundHalfEven_spec scaled step_pos
  rw [← placed] at below full
  generalize roundHalfEven scaled (den * twoTo places) = k at *
  have le : k ≤ 2 * f.fractionRange := by
    have twice : 2 * k * (den * twoTo places) < (4 * f.fractionRange + 1) * (den * twoTo places) := by
      rw [Nat.mul_assoc, Nat.add_mul]
      have double : 4 * f.fractionRange * (den * twoTo places) =
          2 * (den * twoTo places * (2 * f.fractionRange)) := by ring
      omega
    have cancelled := Nat.lt_of_mul_lt_mul_right twice
    omega
  have full' : places = 0 ∨ f.fractionRange ≤ k := by
    refine full.imp_right fun reached => ?_
    exact Nat.le_trans ((Nat.le_div_iff_mul_le step_pos).2 reached) floor
  have parity : Even (places * f.fractionRange + k) ↔ Even k := by
    rw [Nat.even_add]
    exact iff_true_left (wide.mul_left _)
  have value := units_scaled full' le
  have grid : ∀ j, j * twoTo places * den = j * (den * twoTo places) := fun j => by ring
  refine between_div positive (fun n next => ?_) fun _ => ?_
  · rw [parity]
    obtain ⟨j, rfl⟩ : ∃ j, k = j + 1 := by
      cases k with
      | zero =>
        have positive' := f.fractionRange_pos
        have lowest : places = 0 := full'.resolve_right (by omega)
        rw [lowest] at next
        omega
      | succ j => exact ⟨j, rfl⟩
    have before : n = places * f.fractionRange + j := by omega
    by_cases inside : places = 0 ∨ f.fractionRange ≤ j
    · have value' := units_scaled inside (by omega : j ≤ 2 * f.fractionRange)
      rw [before, value, value', Nat.add_mul, grid, grid, Nat.add_mul, Nat.one_mul]
      rw [Nat.add_mul, Nat.one_mul] at low
      refine low.imp (fun less => ?_) (And.imp_left fun mid => ?_)
      · omega
      · omega
    · -- the number is not below the first magnitude of the binade, whose lower neighbour is near
      left
      rw [not_or] at inside
      have reached := full.resolve_left inside.1
      have first : f.fractionRange = j + 1 := by
        have high' := full'.resolve_left inside.1
        omega
      have less : f.units n < f.units (places * f.fractionRange + (j + 1)) :=
        f.units_strictMono (by omega)
      rw [first] at reached value
      rw [first, value] at less
      rw [first, value]
      have scaled_less := Nat.mul_lt_mul_of_pos_right less positive
      rw [Nat.add_mul]
      rw [grid] at scaled_less ⊢
      omega
  · rw [parity]
    by_cases last : k < 2 * f.fractionRange
    · have inside : places = 0 ∨ f.fractionRange ≤ k + 1 := full'.imp_right (by omega)
      have value' := units_scaled inside last
      rw [Nat.add_assoc, value, value', Nat.add_mul, grid, grid]
      have sum : k * (den * twoTo places) + (k + 1) * (den * twoTo places) =
          (2 * k + 1) * (den * twoTo places) := by ring
      rw [sum]
      exact high
    · left
      have top : k = 2 * f.fractionRange := by omega
      have less := f.units_strictMono (Nat.lt_succ_self (places * f.fractionRange + k))
      have scaled_less := Nat.mul_lt_mul_of_pos_right less positive
      rw [value, grid, top] at scaled_less
      rw [Nat.add_mul, value, grid, top]
      rw [Nat.mul_comm (den * twoTo places)] at below
      rw [Nat.succ_eq_add_one] at scaled_less
      omega

/-- **The rounding of the library gives the nearest magnitude.** -/
theorem nearest_round (wide : Even f.fractionRange) {num den : Nat} (positive : 0 < den) :
    f.Nearest (num / den) (f.round num den) := by
  have between := between_round wide (num * twoTo f.unitExponent) positive rfl
  have unit : ((num * twoTo f.unitExponent : Nat) : ℚ) / den / twoTo f.unitExponent = num / den := by
    have unit_pos : (twoTo f.unitExponent : ℚ) ≠ 0 := Nat.cast_ne_zero.2 (twoTo_pos _).ne'
    rw [Nat.cast_mul]
    field_simp
  rw [← unit, round]
  generalize (num * twoTo f.unitExponent / den).log2 - f.fractionBits = places at *
  generalize places * f.fractionRange + roundHalfEven _ _ = m at *
  rcases Nat.le_total m f.infinity with inside | past
  · rw [Nat.min_eq_left inside]
    exact nearest_of_between inside between
  · rw [Nat.min_eq_right past]
    refine nearest_of_between (Nat.le_refl _) (between.of_le past)

end BinaryFormat

end ShaderDag
