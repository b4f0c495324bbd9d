import ShaderDag.Proofs.DoubleRounding
import ShaderDag.Proofs.Literal
import ShaderDag.Proofs.RoundTrip
import ShaderDag.Proofs.Tiling

/-!
# Constants are read back

A number of expression text is rounded to the 64-bit format when it is read, and to the 32-bit format when
it becomes a constant.  The text of a constant is a decimal that rounds to the constant, but the two
roundings need not give what one rounding gives.  They do for all constants but `7.038531e-26` and its
negation, which are read as the constants next to them.

* `Decimal.nearest_magnitude` — numbers are read as the nearest 64-bit number;
* `Numeral.roundsTo_constant` — numbers become the nearest constant, with the sign kept for zero;
* `Constant.compile_text_eq` — the text of a finite constant is built as the constant that it is read as;
* `Constant.reread_eq`, `Constant.reread_lost` — which constant this is;
* `Constant.reread_exact` — constants are read back, with two exceptions.
-/

namespace ShaderDag

/-! ### Numbers of expression text -/

namespace BinaryFormat

variable {f : BinaryFormat} {q : ℚ}

/-- Numbers below the first midpoint are rounded to zero. -/
theorem nearest_zero (small : q < f.midpoint 0) : f.Nearest q 0 :=
  (nearest_iff_midpoint (Nat.zero_le _)).2
    ⟨fun k next => absurd next (Nat.succ_ne_zero k), fun _ => .inl small⟩

/-- Numbers past the range are rounded to infinity. -/
theorem nearest_infinity (large : f.value f.infinity ≤ q) : f.Nearest q f.infinity := by
  refine (nearest_iff_midpoint (Nat.le_refl _)).2
    ⟨fun k next => .inl ?_, fun finite => absurd finite (Nat.lt_irrefl _)⟩
  have less := f.value_strictMono (Nat.lt_add_one k)
  rw [next] at less
  rw [midpoint, next]
  linarith

theorem midpoint_zero (f : BinaryFormat) : f.midpoint 0 = 1 / (2 * twoTo f.unitExponent) := by
  have first : f.value 0 = 0 := by rw [value, units_of_lt f.fractionRange_pos, Nat.cast_zero, zero_div]
  have lowest : twoTo (f.shift 0) = 1 := by
    rw [shift, Nat.zero_div]
    rfl
  rw [midpoint, value_succ, first, lowest, Nat.cast_one]
  field_simp
  ring

/-- Three places of a binary number are less than one decimal place. -/
theorem twoTo_le_tenTo {n m : Nat} (le : n ≤ 3 * m) : twoTo n ≤ tenTo m := by
  calc twoTo n ≤ twoTo (3 * m) := twoTo_le_twoTo le
    _ = 8 ^ m := Nat.pow_mul 2 3 m
    _ ≤ tenTo m := Nat.pow_le_pow_left (by decide) m

theorem value_infinity_double : double.value double.infinity ≤ 10 ^ Decimal.exponentCap := by
  have whole : double.units double.infinity ≤ tenTo Decimal.exponentCap * twoTo double.unitExponent := by
    have places : 52 + 2046 = 1024 + double.unitExponent := rfl
    rw [units_infinity_double, places, twoTo_add]
    exact Nat.mul_le_mul_right _ (twoTo_le_tenTo (by decide))
  rw [value, div_le_iff₀ (Nat.cast_pos.2 (twoTo_pos _)), ← cast_tenTo, ← Nat.cast_mul]
  exact Nat.cast_le.2 whole

theorem midpoint_zero_double : (10 : ℚ) ^ (-Decimal.exponentCap : Int) ≤ double.midpoint 0 := by
  have whole : 2 * twoTo double.unitExponent ≤ tenTo Decimal.exponentCap := by
    rw [← twoTo_succ]
    exact twoTo_le_tenTo (by decide)
  have cast : (2 * twoTo double.unitExponent : ℚ) ≤ 10 ^ Decimal.exponentCap := by
    rw [← cast_tenTo]
    exact_mod_cast whole
  rw [midpoint_zero, zpow_neg, zpow_natCast, ← one_div]
  exact one_div_le_one_div_of_le (mul_pos (by decide) (Nat.cast_pos.2 (twoTo_pos _))) cast

end BinaryFormat

namespace Decimal

open BinaryFormat

variable {d : Decimal}

/-- A number with an exponent past the cap. -/
theorem le_value (nonzero : d.significand ≠ 0) (large : exponentCap < d.exponent) :
    (10 : ℚ) ^ exponentCap ≤ d.value := by
  have digits : (1 : ℚ) ≤ d.significand := Nat.one_le_cast.2 (Nat.pos_of_ne_zero nonzero)
  have power : (10 : ℚ) ^ (exponentCap : Int) ≤ 10 ^ d.exponent := zpow_le_zpow_right₀ (by decide) large.le
  calc (10 : ℚ) ^ exponentCap ≤ 1 * 10 ^ d.exponent := by rwa [one_mul]
    _ ≤ d.value := mul_le_mul_of_nonneg_right digits (zpow_nonneg (by decide) _)

/-- A number with an exponent so low that its digits do not make up for it. -/
theorem value_lt (small : d.exponent + d.significand.log2 + 1 < -exponentCap) :
    d.value < 10 ^ (-exponentCap : Int) := by
  have length : (d.significand : ℚ) < 10 ^ (d.significand.log2 + 1) := by
    have log : d.significand < 10 ^ (d.significand.log2 + 1) :=
      Nat.lt_of_lt_of_le Nat.lt_log2_self (Nat.pow_le_pow_left (by decide) _)
    exact_mod_cast log
  calc d.value < 10 ^ (d.significand.log2 + 1) * 10 ^ d.exponent :=
        mul_lt_mul_of_pos_right length (zpow_pos (by decide) _)
    _ = 10 ^ ((d.significand.log2 + 1 : Nat) + d.exponent) := by
        rw [zpow_add₀ (by decide), zpow_natCast]
    _ ≤ 10 ^ (-exponentCap : Int) := zpow_le_zpow_right₀ (by decide) (by omega)

/-- **Numbers are read as the nearest number of the 64-bit format.**  An exponent past the cap is decided
as the rounding would decide it. -/
theorem nearest_magnitude (d : Decimal) : double.Nearest d.value (d.magnitude .double) := by
  unfold magnitude
  split
  · next zero =>
    have first_pos : (0 : ℚ) < double.midpoint 0 :=
      lt_of_lt_of_le (zpow_pos (by decide) _) midpoint_zero_double
    refine nearest_zero ?_
    rw [value, zero, Nat.cast_zero, zero_mul]
    exact first_pos
  · next nonzero =>
    split
    · next large => exact nearest_infinity (value_infinity_double.trans (le_value nonzero large))
    · split
      · next small => exact nearest_zero (lt_of_lt_of_le (value_lt small) midpoint_zero_double)
      · rw [value_eq]
        exact nearest_round (even_fractionRange (by decide)) (tenTo_pos _)

end Decimal

namespace Numeral

open BinaryFormat

variable {v : Numeral}

theorem toNat_ofDecimal (d : Decimal) : (ofDecimal d).bits.toNat = d.magnitude .double := by
  have bound : double.infinity < 2 ^ 64 := by decide
  have le := d.nearest_magnitude.1
  rw [ofDecimal, Nat.toUInt64_eq, UInt64.toNat_ofNat_of_lt']
  exact Nat.lt_of_le_of_lt le bound

/-- The sign and the magnitude of the constant that a number becomes. -/
theorem parts_constant (negative : Bool) (v : Numeral) : (v.constant negative).isNegative = negative ∧
    (v.constant negative).magnitude = double.convert .single v.bits.toNat := by
  have bit : single.signBit = 2147483648 := rfl
  have bound : double.convert .single v.bits.toNat < 2147483648 := by
    have le : double.convert .single v.bits.toNat ≤ single.infinity := by
      unfold convert
      split
      · exact Nat.min_le_right _ _
      · exact Nat.le_refl _
    exact Nat.lt_of_le_of_lt le (by decide)
  have size : (2 : Nat) ^ 32 = 4294967296 := rfl
  unfold constant
  dsimp only
  rw [Constant.isNegative, Constant.magnitude, bit, Nat.toUInt32_eq, UInt32.toNat_ofNat', size]
  generalize double.convert .single v.bits.toNat = m at *
  cases negative with
  | true =>
    rw [if_pos rfl, decide_eq_true_eq]
    omega
  | false =>
    rw [if_neg Bool.false_ne_true, decide_eq_false_iff_not]
    omega

/-- **Numbers become the nearest constant**, with the sign kept for zero. -/
theorem roundsTo_constant (negative : Bool) (finite : v.bits.toNat < double.infinity) :
    Constant.RoundsTo negative (double.value v.bits.toNat) (v.constant negative) := by
  obtain ⟨sign, magnitude⟩ := parts_constant negative v
  refine ⟨sign, ?_⟩
  rw [magnitude, convert, if_pos finite]
  exact nearest_round Constant.even_fractionRange_single (twoTo_pos _)

end Numeral

/-! ### Texts of constants -/

namespace Constant

open BinaryFormat

variable {c : Constant}

/-- The number that is read for a constant, without its sign. -/
def numeral (c : Constant) : Numeral := .ofDecimal (single.shortest .up c.magnitude)

/-- The constant that the text of a constant is read as. -/
def reread (c : Constant) : Constant := c.numeral.constant c.isNegative

/-- The digits of a decimal are read as the decimal. -/
theorem decimalNumeral_eq {d : Decimal} {whole places : List Char} (spelled : d.SpelledBy whole places) :
    decimalNumeral whole places = .ofDecimal d := by
  have same : (NumeralSpan.mk whole (some places) none []).decimal.value = d.value := by
    rw [← spelled.pointValue_eq, pointValue, div_eq_mul_inv, cast_tenTo, ← zpow_natCast,
      ← zpow_neg, Decimal.value]
    simp [NumeralSpan.decimal]
  have magnitudes := (NumeralSpan.mk whole (some places) none []).decimal.nearest_magnitude
  rw [same] at magnitudes
  rw [decimalNumeral, Numeral.ofDecimal, magnitudes.unique d.nearest_magnitude]
  rfl

theorem spells_numeral (finite : c.IsFinite) (offset : Nat) :
    Spells c.text.toList offset (tokens c.isNegative c.numeral offset) := by
  obtain ⟨whole, places, spelled, read⟩ := spells_shortest finite
  have same := read offset
  rwa [decimalNumeral_eq spelled] at same

/-- The text of a finite constant is an expression, a number with or without a minus sign. -/
theorem parse_text_eq (finite : c.IsFinite) : parse c.text = .ok (expression c.isNegative c.numeral 0) := by
  have alone := spells_numeral finite 0 [] _ closes_nil (by rw [tokenizeFrom])
  rw [List.append_nil] at alone
  rw [parse, tokenize, alone, ok_bind]
  exact parseTokens_of_derives (.ofFactor (.ofUnary (derives_tokens _ _ _)))

/-- **The text of a finite constant is built as the constant that it is read as**, whatever the scope. -/
theorem compile_text_eq (finite : c.IsFinite) (pool : Nat) (scope : Scope) :
    Build.compile pool c.text scope = Build.addConstant pool c.reread := by
  rw [Build.compile, parse_text_eq finite, reread, expression]
  cases c.isNegative with
  | true =>
    rw [if_pos rfl]
    dsimp only
    rw [Build.lower]
  | false =>
    rw [if_neg Bool.false_ne_true]
    dsimp only
    rw [Build.lower]

/-- In every pool of a workspace, the text of a constant is built as a literal. -/
def BuildsAs (c value : Constant) : Prop :=
  ∀ (pool : Nat) (w : Workspace), pool < w.pools.size →
    ∃ h w', Build.compile pool c.text .empty w = .ok h w' ∧ w'.Stands pool h (.literal value)

theorem buildsAs_reread (finite : c.IsFinite) : c.BuildsAs c.reread := by
  intro pool w hpool
  obtain ⟨e, he, kind, node⟩ := Pool.entry?_intern (w.pool pool) .float (.literal c.reread)
  refine ⟨_, _, by rw [compile_text_eq finite, Build.addConstant, Build.intern_run], rfl, ?_, rfl⟩
  rw [Workspace.pool_setPool hpool, if_pos rfl]
  refine Pool.tree?_eq_some_iff.2 ⟨e, he, ?_, ?_, kind⟩
  · rw [node]
    simp [Node.children]
  · rw [node]
    rfl

/-- A text is built as one literal only. -/
theorem BuildsAs.unique {value value' : Constant} (h : c.BuildsAs value) (h' : c.BuildsAs value') :
    value = value' := by
  obtain ⟨first, w, run, stands⟩ := h 0 (.empty 1) (by decide)
  obtain ⟨second, w', run', stands'⟩ := h' 0 (.empty 1) (by decide)
  rw [run] at run'
  cases run'
  cases stands.tree.symm.trans stands'.tree
  rfl

/-! ### Which constant is read -/

/-- **Constants are read back**, if their magnitude is not the one that is next to a midpoint. -/
theorem reread_eq (finite : c.IsFinite) (other : c.magnitude ≠ lostMagnitude) : c.reread = c := by
  have rounded := (single.shortest .up c.magnitude).nearest_magnitude
  rw [← Numeral.toNat_ofDecimal] at rounded
  obtain ⟨bounded, nearest⟩ := nearest_reread finite other rounded
  exact (Numeral.roundsTo_constant c.isNegative bounded).unique ⟨rfl, nearest⟩

theorem magnitude_eq_lost_iff : c.magnitude = lostMagnitude ↔ c = ⟨0x15ae43fd⟩ ∨ c = ⟨0x95ae43fd⟩ := by
  constructor
  · intro lost
    cases negative : c.isNegative with
    | false =>
      exact .inl (eq_of_parts (negative.trans (by decide)) (lost.trans (by decide)))
    | true =>
      exact .inr (eq_of_parts (negative.trans (by decide)) (lost.trans (by decide)))
  · rintro (rfl | rfl)
    · rfl
    · rfl

/-- The decimal next to a midpoint is moved onto it, and the midpoint is rounded to the even magnitude
above. -/
theorem reread_lost : reread ⟨0x15ae43fd⟩ = ⟨0x15ae43fe⟩ ∧ reread ⟨0x95ae43fd⟩ = ⟨0x95ae43fe⟩ := by
  decide +kernel

theorem finite_lost : IsFinite ⟨0x15ae43fd⟩ ∧ IsFinite ⟨0x95ae43fd⟩ := by
  unfold IsFinite
  decide

/-- **Constants are read back, with two exceptions.**  A numeral is read as the 64-bit number nearest to
the decimal that its characters spell, and a 64-bit number within the range becomes the constant nearest
to it, or to its negation behind a minus sign.  The text of a finite constant is built as one constant,
like a call of the constructor of constants.  It is the constant itself, but for `7.038531e-26` and its
negation: they are built as the constants with the next patterns. -/
theorem reread_exact :
    (∀ text v, Word .numeral text (.numeral v) →
      ∃ s : NumeralSpan, s.WellFormed ∧ s.characters = text ∧ double.Nearest s.decimal.value v.bits.toNat) ∧
    (∀ (negative : Bool) (v : Numeral), v.bits.toNat < double.infinity →
      RoundsTo negative (double.value v.bits.toNat) (v.constant negative)) ∧
    (∀ c : Constant, c.IsFinite → ∀ pool scope,
      Build.compile pool c.text scope = Build.addConstant pool c.reread) ∧
    (∀ c : Constant, c.IsFinite → c ≠ ⟨0x15ae43fd⟩ → c ≠ ⟨0x95ae43fd⟩ → c.reread = c ∧ c.BuildsAs c) ∧
    BuildsAs ⟨0x15ae43fd⟩ ⟨0x15ae43fe⟩ ∧ BuildsAs ⟨0x95ae43fd⟩ ⟨0x95ae43fe⟩ := by
  refine ⟨fun text v word => ?_, fun negative v => Numeral.roundsTo_constant negative,
    fun c finite => compile_text_eq finite, fun c finite other other' => ?_, ?_, ?_⟩
  · cases word with
    | @numeral s formed =>
      refine ⟨s, formed, rfl, ?_⟩
      rw [Numeral.toNat_ofDecimal]
      exact s.decimal.nearest_magnitude
  · have same : c.reread = c := reread_eq finite fun lost => (magnitude_eq_lost_iff.1 lost).elim other other'
    have built := buildsAs_reread finite
    rw [same] at built
    exact ⟨same, built⟩
  · have built := buildsAs_reread finite_lost.1
    rwa [reread_lost.1] at built
  · have built := buildsAs_reread finite_lost.2
    rwa [reread_lost.2] at built

/-- The negative of the smallest positive magnitude is read back. -/
theorem smallest_reread :
    IsFinite ⟨0x80000001⟩ ∧ reread ⟨0x80000001⟩ = ⟨0x80000001⟩ ∧ BuildsAs ⟨0x80000001⟩ ⟨0x80000001⟩ := by
  have finite : IsFinite ⟨0x80000001⟩ := by
    unfold IsFinite
    decide
  exact ⟨finite, reread_exact.2.2.2.1 ⟨0x80000001⟩ finite (by decide) (by decide)⟩

/-- The constant `7.038531e-26` is written with its seven digits, and is built as the next one. -/
theorem lost_not_reread :
    (Constant.mk 0x15ae43fd).text.toList = "0.00000000000000000000000007038531".toList ∧
    BuildsAs ⟨0x15ae43fd⟩ ⟨0x15ae43fe⟩ ∧ ¬∀ c : Constant, c.IsFinite → c.BuildsAs c := by
  have built := buildsAs_reread finite_lost.1
  rw [reread_lost.1] at built
  refine ⟨by decide +kernel, built, fun all => ?_⟩
  exact absurd ((all _ finite_lost.1).unique built) (by decide)

end Constant

end ShaderDag
