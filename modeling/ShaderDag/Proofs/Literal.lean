import ShaderDag.Proofs.Interval
import ShaderDag.Proofs.Spelling

/-!
# Constants are written exactly

The text of a finite constant spells a rational number without an exponent.  Rounded to the nearest constant
of the same sign, that number is the constant again, from the smallest magnitudes to the largest ones.  So
the text tells constants apart, the two zeros included.

* `pointValue` — the number that the digits before and behind a point spell;
* `Constant.exists_decimalText` — the digits of a magnitude round to it;
* `Constant.RoundsTo` — what a number with a sign is rounded to; `RoundsTo.unique`;
* `Constant.text_exact` — the text of a constant rounds to it, and no other constant but a non-number
  shares it.
-/

namespace ShaderDag

/-- The number that the digits before and behind a point spell. -/
def pointValue (whole places : List Char) : ℚ := numberOf (whole ++ places) / tenTo places.length

theorem Decimal.SpelledBy.pointValue_eq {d : Decimal} {whole places : List Char}
    (spelled : d.SpelledBy whole places) : pointValue whole places = d.value := by
  have below : (tenTo places.length : ℚ) ≠ 0 := Nat.cast_ne_zero.2 (tenTo_pos _).ne'
  have below' : (tenTo (-d.exponent).toNat : ℚ) ≠ 0 := Nat.cast_ne_zero.2 (tenTo_pos _).ne'
  rw [pointValue, d.value_eq, div_eq_div_iff below below', ← Nat.cast_mul, ← Nat.cast_mul, spelled]

/-- Two rows of digits with a point between them can be told apart. -/
theorem point_inj {whole whole' places places' : List Char} (digits : ∀ c ∈ whole, isDigit c = true)
    (digits' : ∀ c ∈ whole', isDigit c = true) (same : whole ++ '.' :: places = whole' ++ '.' :: places') :
    whole = whole' ∧ places = places' := by
  have stop : ∀ ds : List Char, ∀ c, ('.' :: ds).head? = some c → isDigit c = false := by
    intro ds c first
    cases first
    decide
  obtain ⟨taken, dropped⟩ := span_append digits (stop places)
  obtain ⟨taken', dropped'⟩ := span_append digits' (stop places')
  rw [same] at taken dropped
  exact ⟨taken.symm.trans taken', (List.cons.inj (dropped.symm.trans dropped')).2⟩

namespace Constant

variable {c c' : Constant} {m n : Nat}

theorem even_fractionRange_single : Even BinaryFormat.single.fractionRange :=
  BinaryFormat.even_fractionRange (by decide)

/-- **The digits of a magnitude round to it.** -/
theorem exists_decimalText (le : m ≤ BinaryFormat.single.infinity) :
    ∃ whole places, whole ≠ [] ∧ places ≠ [] ∧
    (∀ c ∈ whole, isDigit c = true) ∧ (∀ c ∈ places, isDigit c = true) ∧
    decimalText m = whole ++ '.' :: places ∧ BinaryFormat.single.Nearest (pointValue whole places) m := by
  obtain ⟨whole, places, nonempty, nonempty', digits, digits', spelled, same⟩ := decimalText_shape m
  refine ⟨whole, places, nonempty, nonempty', digits, digits', same, ?_⟩
  rw [spelled.pointValue_eq]
  exact BinaryFormat.nearest_shortest even_fractionRange_single .up le

theorem decimalText_inj (le : m ≤ BinaryFormat.single.infinity) (le' : n ≤ BinaryFormat.single.infinity)
    (same : decimalText m = decimalText n) : m = n := by
  obtain ⟨whole, places, -, -, digits, -, written, nearest⟩ := exists_decimalText le
  obtain ⟨whole', places', -, -, digits', -, written', nearest'⟩ := exists_decimalText le'
  rw [written, written'] at same
  obtain ⟨rfl, rfl⟩ := point_inj digits digits' same
  exact nearest.unique nearest'

/-! ### Signs -/

/-- A constant is its sign and its magnitude. -/
theorem eq_of_parts (sign : c.isNegative = c'.isNegative) (same : c.magnitude = c'.magnitude) : c = c' := by
  have small : c.bits.toNat < 4294967296 := c.bits.toNat_lt
  have small' : c'.bits.toNat < 4294967296 := c'.bits.toNat_lt
  have bit : BinaryFormat.single.signBit = 2147483648 := by decide +kernel
  have order : 2147483648 ≤ c.bits.toNat ↔ 2147483648 ≤ c'.bits.toNat := by
    rw [isNegative, isNegative, bit] at sign
    exact decide_eq_decide.1 sign
  rw [magnitude, magnitude, bit] at same
  have bits : c.bits = c'.bits := UInt32.toNat_inj.1 (by omega)
  cases c
  cases c'
  exact congrArg Constant.mk bits

/-- The constant is what the number `q` is rounded to, with the sign kept for zero. -/
structure RoundsTo (negative : Bool) (q : ℚ) (c : Constant) : Prop where
  sign : c.isNegative = negative
  nearest : BinaryFormat.single.Nearest q c.magnitude

theorem RoundsTo.unique {negative : Bool} {q : ℚ} (h : RoundsTo negative q c) (h' : RoundsTo negative q c') :
    c = c' :=
  eq_of_parts (h.sign.trans h'.sign.symm) (h.nearest.unique h'.nearest)

/-! ### Texts -/

/-- A pattern that stands for no number and no infinity. -/
def IsNaN (c : Constant) : Prop := BinaryFormat.single.infinity < c.magnitude

theorem text_of_isNaN (h : c.IsNaN) : c.text = "(0.0 / 0.0)" := if_pos h

theorem text_of_infinite (h : c.magnitude = BinaryFormat.single.infinity) :
    c.text = if c.isNegative then "(-1.0 / 0.0)" else "(1.0 / 0.0)" := by
  unfold text
  dsimp only
  rw [if_neg (by omega), if_pos h]

/-- A number starts with a digit behind its sign. -/
theorem exists_digit (finite : c.IsFinite) :
    ∃ d ds, isDigit d = true ∧ decimalText c.magnitude = d :: ds := by
  obtain ⟨whole, places, nonempty, -, digits, -, written, -⟩ := exists_decimalText (Nat.le_of_lt finite)
  obtain ⟨d, ds, rfl⟩ := List.exists_cons_of_ne_nil nonempty
  exact ⟨d, _, digits d List.mem_cons_self, written⟩

theorem finite_or_infinite_or_isNaN (c : Constant) :
    c.IsFinite ∨ c.magnitude = BinaryFormat.single.infinity ∨ c.IsNaN := by
  unfold IsFinite IsNaN
  omega

/-- The text of a constant starts with a parenthesis exactly if it is no number. -/
theorem exists_paren_iff : (∃ cs, c.text.toList = '(' :: cs) ↔ ¬c.IsFinite := by
  constructor
  · intro paren finite
    obtain ⟨cs, paren⟩ := paren
    obtain ⟨d, ds, digit, written⟩ := exists_digit finite
    rw [toList_text finite, written] at paren
    split at paren
    · cases paren
    · cases paren
      exact absurd digit (by decide)
  · intro other
    rcases finite_or_infinite_or_isNaN c with finite | infinite | nan
    · exact absurd finite other
    · rw [text_of_infinite infinite]
      split
      · exact ⟨_, rfl⟩
      · exact ⟨_, rfl⟩
    · rw [text_of_isNaN nan]
      exact ⟨_, rfl⟩

/-- Numbers with one text are the same. -/
theorem text_inj (finite : c.IsFinite) (finite' : c'.IsFinite) (same : c.text = c'.text) : c = c' := by
  obtain ⟨d, ds, digit, written⟩ := exists_digit finite
  obtain ⟨d', ds', digit', written'⟩ := exists_digit finite'
  have minus : isDigit '-' = false := by decide
  have chars := congrArg String.toList same
  rw [toList_text finite, toList_text finite'] at chars
  have sign : c.isNegative = c'.isNegative := by
    rw [written, written'] at chars
    cases negative : c.isNegative <;> cases negative' : c'.isNegative
    · rfl
    · rw [negative, negative'] at chars
      cases chars
      exact absurd digit (by rw [minus]; decide)
    · rw [negative, negative'] at chars
      cases chars
      exact absurd digit' (by rw [minus]; decide)
    · rfl
  rw [sign, List.append_cancel_left_eq] at chars
  exact eq_of_parts sign (decimalText_inj (Nat.le_of_lt finite) (Nat.le_of_lt finite') chars)

/-- Infinities with one text are the same, and share it with no other pattern. -/
theorem text_infinite_inj (infinite : c.magnitude = BinaryFormat.single.infinity) (other : ¬c'.IsFinite)
    (same : c.text = c'.text) : c = c' := by
  rw [text_of_infinite infinite] at same
  rcases finite_or_infinite_or_isNaN c' with finite | infinite' | nan
  · exact absurd finite other
  · rw [text_of_infinite infinite'] at same
    refine eq_of_parts ?_ (infinite.trans infinite'.symm)
    cases negative : c.isNegative <;> cases negative' : c'.isNegative
    · rfl
    · rw [negative, negative'] at same
      exact absurd same (by decide)
    · rw [negative, negative'] at same
      exact absurd same (by decide)
    · rfl
  · rw [text_of_isNaN nan] at same
    split at same
    · exact absurd same (by decide)
    · exact absurd same (by decide)

/-- **Constants are told apart by their texts**, up to patterns that stand for nothing. -/
theorem text_eq_iff : c.text = c'.text ↔ c = c' ∨ c.IsNaN ∧ c'.IsNaN := by
  constructor
  · intro same
    have alike : c.IsFinite ↔ c'.IsFinite := by
      rw [← not_iff_not, ← exists_paren_iff, ← exists_paren_iff, same]
    rcases finite_or_infinite_or_isNaN c with finite | infinite | nan
    · exact .inl (text_inj finite (alike.1 finite) same)
    · have other : ¬c'.IsFinite := fun finite => absurd (alike.2 finite) (by unfold IsFinite; omega)
      exact .inl (text_infinite_inj infinite other same)
    · have other : ¬c.IsFinite := Nat.not_lt_of_lt nan
      rcases finite_or_infinite_or_isNaN c' with finite | infinite | nan'
      · exact absurd (alike.2 finite) other
      · exact .inl (text_infinite_inj infinite other same.symm).symm
      · exact .inr ⟨nan, nan'⟩
  · intro h
    rcases h with rfl | ⟨nan, nan'⟩
    · rfl
    · rw [text_of_isNaN nan, text_of_isNaN nan']

/-- **Constants are written exactly.**  The text of a finite constant is a row of digits, a point and a
row of digits, with a minus sign in front exactly if the sign bit is set.  The number that it spells is
rounded to the constant and to no other one, in the rounding of the library too.  Constants that share a
text are the same, unless both stand for no number at all. -/
theorem text_exact :
    (∀ c : Constant, c.IsFinite → ∃ whole places, whole ≠ [] ∧ places ≠ [] ∧
      (∀ d ∈ whole, isDigit d = true) ∧ (∀ d ∈ places, isDigit d = true) ∧
      c.text.toList = (if c.isNegative then ['-'] else []) ++ (whole ++ '.' :: places) ∧
      (∀ c', RoundsTo c.isNegative (pointValue whole places) c' ↔ c' = c) ∧
      BinaryFormat.single.round (numberOf (whole ++ places)) (tenTo places.length) = c.magnitude) ∧
    ∀ c c' : Constant, c.text = c'.text ↔ c = c' ∨ c.IsNaN ∧ c'.IsNaN := by
  refine ⟨fun c finite => ?_, fun c c' => text_eq_iff⟩
  obtain ⟨whole, places, nonempty, nonempty', digits, digits', written, nearest⟩ :=
    exists_decimalText (Nat.le_of_lt finite)
  have own : RoundsTo c.isNegative (pointValue whole places) c := ⟨rfl, nearest⟩
  refine ⟨whole, places, nonempty, nonempty', digits, digits', ?_, fun c' => ?_, ?_⟩
  · rw [toList_text finite, written]
  · constructor
    · exact fun rounded => rounded.unique own
    · intro same
      rwa [same]
  · exact (BinaryFormat.nearest_round even_fractionRange_single (tenTo_pos _)).unique nearest

/-- The negative of the smallest positive magnitude, in front of which there are forty-four zeros behind the
point. -/
theorem smallest_exact : ∃ whole places,
    (Constant.mk 0x80000001).text.toList = '-' :: (whole ++ '.' :: places) ∧
    ∀ c', RoundsTo true (pointValue whole places) c' ↔ c' = Constant.mk 0x80000001 := by
  have finite : (Constant.mk 0x80000001).IsFinite := by
    unfold IsFinite
    decide +kernel
  have negative : (Constant.mk 0x80000001).isNegative = true := by decide +kernel
  obtain ⟨whole, places, -, -, -, -, written, rounds, -⟩ := text_exact.1 (Constant.mk 0x80000001) finite
  rw [negative] at written rounds
  exact ⟨whole, places, written, rounds⟩

end Constant

end ShaderDag
