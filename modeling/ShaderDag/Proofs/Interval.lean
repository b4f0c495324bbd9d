import Mathlib.Tactic.NormNum
import ShaderDag.Number.Shortest
import ShaderDag.Proofs.Rounding

/-!
# The decimal of a magnitude

The interval of a magnitude ends at the midpoints next to it, so every decimal in the interval rounds to the
magnitude.  A decimal is only ever taken from the interval, or is the value of the magnitude itself.

* `Decimal.value` — the number that a decimal stands for;
* `BinaryFormat.low_interval`, `BinaryFormat.high_interval` — the ends of the interval are the midpoints;
* `RoundingInterval.holds_of_coarsest?` — the search for a coarse grid stays in the interval;
* `BinaryFormat.nearest_shortest` — the decimal of a magnitude rounds to it;
* `BinaryFormat.rounds_shortest` — it is at most half a grid step away from an odd magnitude.
-/

namespace ShaderDag

/-- The number that a decimal stands for. -/
def Decimal.value (d : Decimal) : ℚ := d.significand * (10 : ℚ) ^ d.exponent

theorem tenTo_pos (n : Nat) : 0 < tenTo n := Nat.pow_pos (by decide)

/-- A power of ten as a quotient of whole numbers. -/
theorem ten_zpow_eq (e : Int) : (10 : ℚ) ^ e = (tenTo e.toNat : ℚ) / tenTo (-e).toNat := by
  have sides : e = (e.toNat : Int) - ((-e).toNat : Int) := by omega
  conv_lhs => rw [sides, zpow_sub₀ (by decide : (10 : ℚ) ≠ 0), zpow_natCast, zpow_natCast]
  show _ = ((10 ^ e.toNat : Nat) : ℚ) / ((10 ^ (-e).toNat : Nat) : ℚ)
  rw [Nat.cast_pow, Nat.cast_pow]
  rfl

/-- A decimal as a quotient of whole numbers. -/
theorem Decimal.value_eq (d : Decimal) :
    d.value = ((d.significand * tenTo d.exponent.toNat : Nat) : ℚ) / tenTo (-d.exponent).toNat := by
  rw [value, ten_zpow_eq, Nat.cast_mul, mul_div_assoc]

namespace RoundingInterval

variable {i : RoundingInterval} {tie : TieRule} {d : Decimal} {e : Int} {n : Nat}

/-- What an interval contains lies between its ends, or is an end that belongs to it. -/
theorem bounds_of_contains {factor point : Nat} (inside : i.contains factor point = true) :
    (i.low * factor < point ∨ i.low * factor = point ∧ i.closed = true) ∧
      (point < i.high * factor ∨ point = i.high * factor ∧ i.closed = true) := by
  unfold contains at inside
  split at inside
  · next closed =>
    rw [Bool.and_eq_true, decide_eq_true_eq, decide_eq_true_eq] at inside
    constructor
    · exact (Nat.lt_or_eq_of_le inside.1).imp_right fun same => ⟨same, closed⟩
    · exact (Nat.lt_or_eq_of_le inside.2).imp_right fun same => ⟨same, closed⟩
  · rw [Bool.and_eq_true, decide_eq_true_eq, decide_eq_true_eq] at inside
    exact ⟨.inl inside.1, .inl inside.2⟩

/-- The decimal lies in the interval. -/
def Holds (i : RoundingInterval) (d : Decimal) : Prop :=
  i.contains (tenTo (-d.exponent).toNat) (d.significand * (i.scale * tenTo d.exponent.toNat)) = true

theorem holds_of_nearest? (found : i.nearest? tie e = some n) : i.Holds ⟨n, e⟩ := by
  unfold nearest? at found
  have inside := List.find?_some
    (p := fun n => i.contains (tenTo (-e).toNat) (n * (i.scale * tenTo e.toNat))) found
  exact inside

/-- **The search for a coarse grid stays in the interval.** -/
theorem holds_of_coarsest? {grids : Nat} (found : i.coarsest? tie grids e = some d) : i.Holds d := by
  induction grids generalizing e with
  | zero => cases found
  | succ grids ih =>
    rw [coarsest?] at found
    split at found
    · next n near =>
      cases found
      exact holds_of_nearest? near
    · exact ih found

/-- A point that is not farther from the middle of an interval than another one lies in it if that one
does. -/
theorem contains_of_farther {factor x y : Nat} (symmetric : i.low + i.high = 2 * i.value)
    (nearer : x ≤ y ∧ 2 * (i.value * factor) ≤ x + y ∨ y ≤ x ∧ x + y ≤ 2 * (i.value * factor))
    (inside : i.contains factor y = true) : i.contains factor x = true := by
  have middle : i.low * factor + i.high * factor = 2 * (i.value * factor) := by
    rw [← Nat.add_mul, symmetric, Nat.mul_assoc]
  unfold contains at inside ⊢
  split
  · next closed =>
    rw [if_pos closed, Bool.and_eq_true, decide_eq_true_eq, decide_eq_true_eq] at inside
    rw [Bool.and_eq_true, decide_eq_true_eq, decide_eq_true_eq]
    omega
  · next opened =>
    rw [if_neg opened, Bool.and_eq_true, decide_eq_true_eq, decide_eq_true_eq] at inside
    rw [Bool.and_eq_true, decide_eq_true_eq, decide_eq_true_eq]
    omega

theorem eq_of_find?_pair {p : Nat → Bool} {a b : Nat} (found : [a, b].find? p = some n)
    (first : p b = true → p a = true) : n = a := by
  rw [List.find?_cons] at found
  split at found
  · exact (Option.some.inj found).symm
  · next outside =>
    have inside := List.find?_some found
    obtain rfl := List.mem_singleton.1 (List.mem_of_find?_eq_some found)
    rw [first inside] at outside
    cases outside

/-- The point that is taken is at most half a step away from the middle of the interval. -/
theorem bounds_of_nearest? (symmetric : i.low + i.high = 2 * i.value) (positive : 0 < i.scale)
    (found : i.nearest? tie e = some n) :
    2 * (n * (i.scale * tenTo e.toNat)) ≤ 2 * (i.value * tenTo (-e).toNat) + i.scale * tenTo e.toNat ∧
      2 * (i.value * tenTo (-e).toNat) ≤ 2 * (n * (i.scale * tenTo e.toNat)) + i.scale * tenTo e.toNat := by
  unfold nearest? at found
  dsimp only at found
  have step_pos : 0 < i.scale * tenTo e.toNat := Nat.mul_pos positive (tenTo_pos _)
  generalize i.scale * tenTo e.toNat = step at *
  have split := Nat.div_add_mod' (i.value * tenTo (-e).toNat) step
  have rest := Nat.mod_lt (i.value * tenTo (-e).toNat) step_pos
  generalize i.value * tenTo (-e).toNat / step = below at *
  generalize i.value * tenTo (-e).toNat % step = gap at *
  have next : (below + 1) * step = below * step + step := by rw [Nat.add_mul, Nat.one_mul]
  by_cases down : 2 * gap < step ∨ 2 * gap = step ∧ tie = .toEven ∧ below % 2 = 0
  · rw [if_pos down] at found
    obtain rfl := eq_of_find?_pair found (contains_of_farther symmetric (.inl (by omega)))
    omega
  · rw [if_neg down] at found
    obtain rfl := eq_of_find?_pair found (contains_of_farther symmetric (.inr (by omega)))
    omega

/-- The middle of the interval is at most half a grid step away from the decimal. -/
def Rounds (i : RoundingInterval) (d : Decimal) : Prop :=
  2 * |d.value - i.value / i.scale| ≤ 10 ^ d.exponent

theorem rounds_of_nearest? (symmetric : i.low + i.high = 2 * i.value) (positive : 0 < i.scale)
    (found : i.nearest? tie e = some n) : i.Rounds ⟨n, e⟩ := by
  obtain ⟨high, low⟩ := bounds_of_nearest? symmetric positive found
  have scale_pos : (0 : ℚ) < i.scale := Nat.cast_pos.2 positive
  have factor_pos : (0 : ℚ) < tenTo (-e).toNat := Nat.cast_pos.2 (tenTo_pos _)
  have high' : (2 * (n * (i.scale * tenTo e.toNat)) : ℚ) ≤
      2 * (i.value * tenTo (-e).toNat) + i.scale * tenTo e.toNat := by exact_mod_cast high
  have low' : (2 * (i.value * tenTo (-e).toNat) : ℚ) ≤
      2 * (n * (i.scale * tenTo e.toNat)) + i.scale * tenTo e.toNat := by exact_mod_cast low
  have distance : Decimal.value ⟨n, e⟩ - i.value / i.scale =
      (n * (i.scale * tenTo e.toNat) - i.value * tenTo (-e).toNat) / (i.scale * tenTo (-e).toNat) := by
    rw [Decimal.value, ten_zpow_eq]
    field_simp
  have step : (10 : ℚ) ^ e = i.scale * tenTo e.toNat / (i.scale * tenTo (-e).toNat) := by
    rw [ten_zpow_eq, mul_div_mul_left _ _ scale_pos.ne']
  have half : |(n * (i.scale * tenTo e.toNat) - i.value * tenTo (-e).toNat : ℚ)|
      ≤ i.scale * tenTo e.toNat / 2 :=
    abs_le.2 ⟨by linarith, by linarith⟩
  have common : (0 : ℚ) < i.scale * tenTo (-e).toNat := mul_pos scale_pos factor_pos
  rw [Rounds, distance, abs_div, abs_of_pos common, step, ← mul_div_assoc]
  exact div_le_div_of_nonneg_right (by linarith) common.le

/-- **The search for a coarse grid takes a point next to the middle of the interval.** -/
theorem rounds_of_coarsest? {grids : Nat} (symmetric : i.low + i.high = 2 * i.value) (positive : 0 < i.scale)
    (found : i.coarsest? tie grids e = some d) : i.Rounds d := by
  induction grids generalizing e with
  | zero => cases found
  | succ grids ih =>
    rw [coarsest?] at found
    split at found
    · next n near =>
      cases found
      exact rounds_of_nearest? symmetric positive near
    · exact ih found

end RoundingInterval

namespace BinaryFormat

variable {f : BinaryFormat} {m k : Nat}

/-- The interval of a magnitude starts at the midpoint below it. -/
theorem low_interval (next : k + 1 = m) : (f.interval m).low = 2 * (f.units k + f.units m) := by
  obtain ⟨split, below, full⟩ := f.magnitude_eq m
  have positive := f.fractionRange_pos
  have own : f.units m = f.significand m * twoTo (f.shift m) := rfl
  show 4 * f.significand m * twoTo (f.shift m) - _ = _
  rw [own, Nat.mul_assoc 4]
  by_cases first : f.significand m = f.fractionRange ∧ 0 < f.shift m
  · -- below a power of two the gap is half of the gap above it
    obtain ⟨b, same⟩ : ∃ b, f.shift m = b + 1 := ⟨f.shift m - 1, by omega⟩
    have before : k = b * f.fractionRange + (2 * f.fractionRange - 1) := by
      rw [first.1, same, Nat.add_mul] at split
      omega
    have value := units_scaled (f := f) (a := b) (k := 2 * f.fractionRange - 1) (by omega) (by omega)
    rw [if_pos first, before, value, first.1, same, twoTo_succ, Nat.sub_mul, Nat.one_mul]
    have double : f.fractionRange * (2 * twoTo b) = 2 * f.fractionRange * twoTo b := by ring
    have least : twoTo b ≤ 2 * f.fractionRange * twoTo b := Nat.le_mul_of_pos_left _ (by omega)
    omega
  · have nonzero : 0 < f.significand m := by
      by_contra zero
      have lowest := full.resolve_right (by omega)
      rw [lowest] at split
      omega
    have inside : f.shift m = 0 ∨ f.fractionRange ≤ f.significand m - 1 := by omega
    have before : k = f.shift m * f.fractionRange + (f.significand m - 1) := by omega
    have value := units_scaled inside (by omega : f.significand m - 1 ≤ 2 * f.fractionRange)
    rw [if_neg first, before, value, Nat.sub_mul, Nat.one_mul]
    have least : twoTo (f.shift m) ≤ f.significand m * twoTo (f.shift m) := Nat.le_mul_of_pos_left _ nonzero
    omega

/-- The interval of a magnitude ends at the midpoint above it. -/
theorem high_interval (m : Nat) : (f.interval m).high = 2 * (f.units m + f.units (m + 1)) := by
  show 4 * f.significand m * twoTo (f.shift m) + 2 * twoTo (f.shift m) = _
  rw [units_succ, units]
  ring

/-- The ends belong to the interval of an even magnitude. -/
theorem closed_interval_iff (wide : Even f.fractionRange) (m : Nat) :
    (f.interval m).closed = true ↔ Even m := by
  rw [← even_significand_iff wide, Nat.even_iff]
  exact beq_iff_eq

/-- **A decimal in the interval lies between the midpoints.** -/
theorem between_of_holds (wide : Even f.fractionRange) {d : Decimal} (inside : (f.interval m).Holds d) :
    f.Between (d.value * twoTo f.unitExponent) m := by
  have quotient : d.value * twoTo f.unitExponent =
      ((d.significand * tenTo d.exponent.toNat * twoTo f.unitExponent : Nat) : ℚ) /
        tenTo (-d.exponent).toNat := by
    rw [Decimal.value_eq, Nat.cast_mul _ (twoTo _)]
    ring
  have scale : (f.interval m).scale = 4 * twoTo f.unitExponent := rfl
  have point : d.significand * (4 * twoTo f.unitExponent * tenTo d.exponent.toNat) =
      2 * (2 * (d.significand * tenTo d.exponent.toNat * twoTo f.unitExponent)) := by ring
  obtain ⟨low, high⟩ := RoundingInterval.bounds_of_contains inside
  rw [scale, point, closed_interval_iff wide] at low high
  rw [high_interval, Nat.mul_assoc 2 (f.units m + _)] at high
  rw [quotient]
  refine between_div (tenTo_pos _) (fun k next => ?_) fun _ => ?_
  · rw [low_interval next, Nat.mul_assoc 2 (f.units k + _)] at low
    refine low.imp (fun less => ?_) (And.imp_left fun same => ?_)
    · omega
    · omega
  · refine high.imp (fun less => ?_) (And.imp_left fun same => ?_)
    · omega
    · omega

/-- The value of a magnitude is nearest to it. -/
theorem nearest_value (le : m ≤ f.infinity) : f.Nearest (f.value m) m := by
  refine nearest_of_between le ⟨fun k next => ?_, fun _ => ?_⟩
  · have less : (f.units k : ℚ) < f.units m := Nat.cast_lt.2 (f.units_strictMono (by omega))
    left
    linarith
  · have less : (f.units m : ℚ) < f.units (m + 1) := Nat.cast_lt.2 (f.units_strictMono (by omega))
    left
    linarith

/-- The value of a magnitude, written out with a power of ten as its denominator. -/
theorem value_exact (f : BinaryFormat) (m : Nat) :
    Decimal.value ⟨f.units m * Nat.pow 5 f.unitExponent, -f.unitExponent⟩ = f.value m := by
  have ten : (10 : ℚ) ^ f.unitExponent = twoTo f.unitExponent * 5 ^ f.unitExponent := by
    rw [twoTo, Nat.pow_eq, Nat.cast_pow, ← mul_pow]
    norm_num
  have five : (5 : ℚ) ^ f.unitExponent ≠ 0 := pow_ne_zero _ (by decide)
  have unit : (twoTo f.unitExponent : ℚ) ≠ 0 := Nat.cast_ne_zero.2 (twoTo_pos _).ne'
  rw [BinaryFormat.value, Decimal.value, zpow_neg, zpow_natCast, ten, Nat.pow_eq, Nat.cast_mul,
    Nat.cast_pow, Nat.cast_ofNat]
  field_simp

/-- **The decimal of a magnitude rounds to it.** -/
theorem nearest_shortest (wide : Even f.fractionRange) (tie : TieRule) (le : m ≤ f.infinity) :
    f.Nearest (f.shortest tie m).value m := by
  have unit : (twoTo f.unitExponent : ℚ) ≠ 0 := Nat.cast_ne_zero.2 (twoTo_pos _).ne'
  have exact : f.Nearest (f.value m) m := nearest_value le
  unfold shortest
  split
  · next zero =>
    subst zero
    have same : Decimal.value ⟨0, 0⟩ = f.value 0 := by
      rw [BinaryFormat.value, units_of_lt f.fractionRange_pos]
      simp [Decimal.value]
    rwa [same]
  · dsimp only
    cases found : (f.interval m).coarsest? tie _ _ with
    | some d =>
      have between := between_of_holds wide (RoundingInterval.holds_of_coarsest? found)
      have nearest := nearest_of_between le between
      rwa [mul_div_cancel_right₀ _ unit] at nearest
    | none =>
      rw [Option.getD_none, value_exact]
      exact exact

/-- The two gaps next to an odd magnitude are the same. -/
theorem symmetric_interval (wide : Even f.fractionRange) (odd : ¬Even m) :
    (f.interval m).low + (f.interval m).high = 2 * (f.interval m).value := by
  rw [← even_significand_iff wide] at odd
  have inner : f.significand m ≠ f.fractionRange := fun first => odd (first ▸ wide)
  have positive : 1 ≤ f.significand m := Nat.pos_of_ne_zero fun zero => odd (zero ▸ Even.zero)
  have least : 2 * twoTo (f.shift m) ≤ 4 * f.significand m * twoTo (f.shift m) :=
    Nat.mul_le_mul_right _ (by omega)
  unfold interval
  dsimp only
  rw [if_neg fun first => inner first.1]
  omega

/-- **The decimal of an odd magnitude is at most half a grid step away from it.** -/
theorem rounds_shortest (wide : Even f.fractionRange) (tie : TieRule) (odd : ¬Even m) :
    2 * |(f.shortest tie m).value - f.value m| ≤ 10 ^ (f.shortest tie m).exponent := by
  have nonzero : m ≠ 0 := fun zero => odd (zero ▸ Even.zero)
  have middle : ((f.interval m).value / (f.interval m).scale : ℚ) = f.value m := by
    show ((4 * f.significand m * twoTo (f.shift m) : Nat) : ℚ) / (4 * twoTo f.unitExponent : Nat) = _
    rw [Nat.mul_assoc, Nat.cast_mul, Nat.cast_mul 4, mul_div_mul_left _ _ (by norm_num), value, units]
  have scale_pos : 0 < (f.interval m).scale := Nat.mul_pos (by decide) (twoTo_pos _)
  unfold shortest
  rw [if_neg nonzero]
  dsimp only
  cases found : (f.interval m).coarsest? tie _ _ with
  | some d =>
    have rounds := RoundingInterval.rounds_of_coarsest? (symmetric_interval wide odd) scale_pos found
    rwa [RoundingInterval.Rounds, middle] at rounds
  | none =>
    rw [Option.getD_none, value_exact, sub_self, abs_zero, mul_zero]
    exact zpow_nonneg (by norm_num) _

end BinaryFormat

end ShaderDag
