import ShaderDag.Number.Constant
import ShaderDag.Proofs.Binder

/-!
# Characters that spell tokens

The lexer takes the longest names and numbers, so what a piece of text is cut into depends on what stands
behind it.  Behind a piece that ends a name or a number, the pieces of a text can be read one by one.

* `Closes` — text behind which a name or a number ends;
* `tokenizeFrom_symbol`, `tokenizeFrom_name` — steps of the lexer;
* `Spells` — characters that are cut into some tokens, whatever closing text stands behind them;
* `Spells.symbol`, `Spells.blank`, `Spells.append` — how pieces are put together;
* `spells_name`, `spells_decimal` — names, and numbers with a decimal point;
* `Decimal.SpelledBy`, `Decimal.positional_shape` — the digits before and behind a point spell a decimal;
* `Constant.spells` — the text of a finite constant is a number, with a minus sign if it is negative.
-/

namespace ShaderDag

/-! ### Character classes -/

theorem isDigit_iff {c : Char} : isDigit c = true ↔ 48 ≤ c.toNat ∧ c.toNat ≤ 57 := by
  simp only [isDigit, Bool.and_eq_true, decide_eq_true_eq, Char.le_def, UInt32.le_iff_toNat_le]
  exact Iff.rfl

theorem isBlank_cases {c : Char} (h : isBlank c = true) :
    c = ' ' ∨ c = '\t' ∨ c = '\n' ∨ c = '\x0c' ∨ c = '\r' := by
  simpa only [isBlank, Bool.or_eq_true, beq_iff_eq, or_assoc] using h

/-- What starts a name is no blank and starts no number. -/
theorem nameStart_apart {c : Char} (h : isNameStart c = true) :
    isBlank c = false ∧ ∀ rest, startsNumeral c rest = false := by
  have digit : isDigit c = false := by
    rw [Bool.eq_false_iff, ne_eq, isDigit_iff]
    simp only [isNameStart, Bool.or_eq_true, Bool.and_eq_true, decide_eq_true_eq, beq_iff_eq, Char.le_def,
      UInt32.le_iff_toNat_le] at h
    rcases h with (small | large) | rfl
    · have : 97 ≤ c.toNat := small.1
      omega
    · have : 65 ≤ c.toNat := large.1
      omega
    · decide
  refine ⟨?_, fun rest => ?_⟩
  · rw [Bool.eq_false_iff]
    intro blank
    rcases isBlank_cases blank with rfl | rfl | rfl | rfl | rfl <;> exact absurd h (by decide)
  · have point : c ≠ '.' := by
      intro same
      subst same
      exact absurd h (by decide)
    simp [startsNumeral, digit, point]

/-- A digit is no blank. -/
theorem isBlank_of_isDigit {c : Char} (h : isDigit c = true) : isBlank c = false := by
  rw [Bool.eq_false_iff]
  intro blank
  rcases isBlank_cases blank with rfl | rfl | rfl | rfl | rfl <;> exact absurd h (by decide)

/-- A character that is a token on its own is of no other class. -/
theorem symbol_apart {c : Char} {lexeme : Lexeme} (h : symbolLexeme? c = some lexeme) :
    isBlank c = false ∧ (∀ rest, startsNumeral c rest = false) ∧ isNameStart c = false := by
  unfold symbolLexeme? at h
  split at h
  case h_7 => cases h
  all_goals exact ⟨by decide, fun rest => by simp [startsNumeral, isDigit], by decide⟩

/-! ### Text that closes what stands before it -/

/-- Text that starts with neither a letter, a digit, an underscore nor a point. -/
def Closes (rest : List Char) : Prop := ∀ c, rest.head? = some c → isNamePart c = false ∧ c ≠ '.'

theorem closes_nil : Closes [] := nofun

/-- A blank closes what stands before it. -/
theorem closes_blank (rest : List Char) : Closes (' ' :: rest) := by
  intro c same
  cases same
  exact ⟨by decide, by decide⟩

/-- A token of one character closes what stands before it. -/
theorem closes_symbol {c : Char} {lexeme : Lexeme} (known : symbolLexeme? c = some lexeme)
    (rest : List Char) : Closes (c :: rest) := by
  intro d same
  cases same
  unfold symbolLexeme? at known
  split at known
  case h_7 => cases known
  all_goals exact ⟨by decide, by decide⟩

/-- The part of a text that is of a class, if what follows is not. -/
theorem span_append {α : Type} {p : α → Bool} {cs rest : List α} (all : ∀ c ∈ cs, p c = true)
    (stop : ∀ c, rest.head? = some c → p c = false) :
    (cs ++ rest).takeWhile p = cs ∧ (cs ++ rest).dropWhile p = rest := by
  rw [List.takeWhile_append_of_pos all, List.dropWhile_append_of_pos all]
  cases rest with
  | nil => simp
  | cons c rest => simp [stop c rfl]

/-! ### Steps of the lexer -/

theorem tokenizeFrom_blank {c : Char} (blank : isBlank c = true) (offset : Nat) (cs : List Char) :
    tokenizeFrom offset (c :: cs) = tokenizeFrom (offset + 1) cs := by
  rw [tokenizeFrom, if_pos blank]

theorem tokenizeFrom_symbol {c : Char} {lexeme : Lexeme} (known : symbolLexeme? c = some lexeme)
    (offset : Nat) (cs : List Char) :
    tokenizeFrom offset (c :: cs) =
      do let more ← tokenizeFrom (offset + 1) cs; return ⟨lexeme, offset⟩ :: more := by
  obtain ⟨blank, number, name⟩ := symbol_apart known
  rw [tokenizeFrom]
  simp only [blank, number, name, known]
  rfl

theorem tokenizeFrom_name {text : String} {rest : List Char} (spelled : isIdentifier text = true)
    (stop : ∀ c, rest.head? = some c → isNamePart c = false) (offset : Nat) :
    tokenizeFrom offset (text.toList ++ rest) = do
      let more ← tokenizeFrom (offset + text.toList.length) rest
      return ⟨.name text, offset⟩ :: more := by
  cases written : text.toList with
  | nil => simp [isIdentifier, written] at spelled
  | cons c cs =>
    simp only [isIdentifier, written, Bool.and_eq_true, List.all_eq_true] at spelled
    obtain ⟨blank, number⟩ := nameStart_apart spelled.1
    obtain ⟨taken, dropped⟩ := span_append spelled.2 stop
    rw [List.cons_append, tokenizeFrom]
    simp only [blank, number, spelled.1, taken, dropped, ← written, String.ofList_toList]
    rfl

/-! ### Spelling -/

/-- The characters, which start at an offset, are cut into the tokens `ts` in front of everything that
closes them. -/
def Spells (cs : List Char) (offset : Nat) (ts : List Token) : Prop :=
  ∀ rest more, Closes rest → tokenizeFrom (offset + cs.length) rest = .ok more →
    tokenizeFrom offset (cs ++ rest) = .ok (ts ++ more)

section Pieces

variable {cs ds : List Char} {offset : Nat} {ts us : List Token}

theorem spells_nil (offset : Nat) : Spells [] offset [] := fun _ _ _ h => h

theorem Spells.append {d : Char} (first : Spells cs offset ts)
    (second : Spells (d :: ds) (offset + cs.length) us) (closing : ∀ rest, Closes (d :: rest)) :
    Spells (cs ++ d :: ds) offset (ts ++ us) := by
  intro rest more closed read
  rw [List.length_append, ← Nat.add_assoc] at read
  rw [List.append_assoc, List.append_assoc]
  exact first _ _ (closing _) (second rest more closed read)

/-- A token of one character. -/
theorem Spells.symbol {c : Char} {lexeme : Lexeme} (known : symbolLexeme? c = some lexeme)
    (rest : Spells ds (offset + 1) us) : Spells (c :: ds) offset (⟨lexeme, offset⟩ :: us) := by
  intro tail more closed read
  rw [List.length_cons, Nat.add_comm ds.length, ← Nat.add_assoc] at read
  rw [List.cons_append, tokenizeFrom_symbol known, rest tail more closed read]
  rfl

/-- A blank is skipped. -/
theorem Spells.blank (rest : Spells ds (offset + 1) us) : Spells (' ' :: ds) offset us := by
  intro tail more closed read
  rw [List.length_cons, Nat.add_comm ds.length, ← Nat.add_assoc] at read
  have blank : isBlank ' ' = true := by decide
  rw [List.cons_append, tokenizeFrom_blank blank]
  exact rest tail more closed read

/-- Text in front of a closing parenthesis. -/
theorem Spells.close (inner : Spells cs offset ts) :
    Spells (cs ++ [')']) offset (ts ++ [⟨.closeParen, offset + cs.length⟩]) := by
  have known : symbolLexeme? ')' = some .closeParen := rfl
  exact inner.append (.symbol known (spells_nil _)) (closes_symbol known)

/-- A name. -/
theorem spells_name {text : String} (h : isIdentifier text = true) (offset : Nat) :
    Spells text.toList offset [⟨.name text, offset⟩] := by
  intro rest more closed read
  rw [tokenizeFrom_name h fun c first => (closed c first).1, read]
  rfl

/-- The longest number at the start of a decimal with a point is all of it. -/
theorem scan_decimal {whole places rest : List Char} (digits : ∀ c ∈ whole, isDigit c = true)
    (digits' : ∀ c ∈ places, isDigit c = true) (closed : Closes rest) :
    NumeralSpan.scan (whole ++ ('.' :: (places ++ rest))) = .ok ⟨whole, some places, none, rest⟩ := by
  have stop : ∀ c, rest.head? = some c → isDigit c = false := by
    intro c hc
    have part := (closed c hc).1
    rw [isNamePart, Bool.or_eq_false_iff] at part
    exact part.2
  have point : ∀ c, ('.' :: (places ++ rest)).head? = some c → isDigit c = false := by
    intro c hc
    cases hc
    decide
  obtain ⟨taken, dropped⟩ := span_append digits point
  obtain ⟨taken', dropped'⟩ := span_append digits' stop
  unfold NumeralSpan.scan
  simp only [taken, dropped, taken', dropped']
  cases rest with
  | nil => rfl
  | cons mark rest =>
    have other := (closed mark rfl).1
    have exponent : (mark == 'e' || mark == 'E') = false := by
      rw [Bool.or_eq_false_iff, beq_eq_false_iff_ne, beq_eq_false_iff_ne]
      constructor
      all_goals
        intro same
        subst same
        exact absurd other (by decide)
    simp only [exponent]
    rfl

/-- The number that digits before and behind a point spell. -/
def decimalNumeral (whole places : List Char) : Numeral :=
  .ofDecimal (NumeralSpan.mk whole (some places) none []).decimal

/-- A number with a point. -/
theorem spells_decimal {whole places : List Char} (nonempty : whole ≠ [])
    (digits : ∀ c ∈ whole, isDigit c = true) (digits' : ∀ c ∈ places, isDigit c = true) (offset : Nat) :
    Spells (whole ++ '.' :: places) offset [⟨.numeral (decimalNumeral whole places), offset⟩] := by
  intro rest more closed read
  obtain ⟨d, ds, rfl⟩ := List.exists_cons_of_ne_nil nonempty
  have first : isDigit d = true := digits d List.mem_cons_self
  have scanned := scan_decimal digits digits' closed
  rw [List.append_assoc, List.cons_append, List.cons_append, tokenizeFrom,
    if_neg (by simp [isBlank_of_isDigit first]), dif_pos (by simp [startsNumeral, first])]
  split
  · next before failed =>
    rw [List.cons_append, failed] at scanned
    cases scanned
  · next span found =>
    rw [List.cons_append, found] at scanned
    cases scanned
    have length : (NumeralSpan.mk (d :: ds) (some places) none rest).characters.length =
        (d :: ds ++ '.' :: places).length := by simp [NumeralSpan.characters]
    rw [length, read]
    rfl

end Pieces

/-! ### Constants -/

theorem isDigit_of_mem_digitsOf {n : Nat} {c : Char} (h : c ∈ digitsOf n) : isDigit c = true := by
  rw [digitsOf, ← Nat.toList_repr] at h
  exact isDigit_of_mem_toString h

theorem isDigit_of_mem_zeros {n : Nat} {c : Char} (h : c ∈ List.replicate n '0') : isDigit c = true := by
  rw [List.eq_of_mem_replicate h]
  decide

@[simp] theorem tenTo_zero : tenTo 0 = 1 := rfl

@[simp] theorem numberOf_digitsOf (n : Nat) : numberOf (digitsOf n) = n := Nat.ofDigitChars_ten_toDigits

@[simp] theorem numberOf_zeros_append (n : Nat) (ds : List Char) :
    numberOf (List.replicate n '0' ++ ds) = numberOf ds := by
  rw [numberOf, Nat.ofDigitChars_append, Nat.ofDigitChars_replicate_zero, Nat.mul_zero, numberOf]

@[simp] theorem numberOf_append_zeros (n : Nat) (ds : List Char) :
    numberOf (ds ++ List.replicate n '0') = numberOf ds * tenTo n := by
  rw [numberOf, Nat.ofDigitChars_append, Nat.ofDigitChars_replicate_zero, Nat.mul_comm]
  rfl

/-- The digits before and behind a point spell a decimal, in whole numbers. -/
def Decimal.SpelledBy (d : Decimal) (whole places : List Char) : Prop :=
  numberOf (whole ++ places) * tenTo (-d.exponent).toNat =
    d.significand * tenTo d.exponent.toNat * tenTo places.length

/-- A decimal written out is a row of digits, or two rows with a point between them, and the digits spell
it. -/
theorem Decimal.positional_shape (d : Decimal) :
    (d.positional ≠ [] ∧ (∀ c ∈ d.positional, isDigit c = true) ∧ d.SpelledBy d.positional []) ∨
    ∃ whole places, whole ≠ [] ∧ places ≠ [] ∧ (∀ c ∈ whole, isDigit c = true) ∧
      (∀ c ∈ places, isDigit c = true) ∧ d.SpelledBy whole places ∧
      d.positional = whole ++ '.' :: places := by
  have nonempty : digitsOf d.significand ≠ [] := Nat.toDigits_ne_nil
  unfold positional SpelledBy
  dsimp only
  split
  · next zeros exponent =>
    left
    have up : d.exponent.toNat = zeros := by rw [exponent]; rfl
    have down : (-d.exponent).toNat = 0 := by rw [exponent, Int.ofNat_eq_natCast]; omega
    rw [up, down, List.append_nil]
    split
    · next zero =>
      refine ⟨nonempty, fun c hc => isDigit_of_mem_digitsOf hc, ?_⟩
      rw [numberOf_digitsOf, zero, Nat.zero_mul, Nat.zero_mul, Nat.zero_mul]
    · refine ⟨by simp [nonempty], fun c hc => ?_, by rw [numberOf_append_zeros, numberOf_digitsOf]; rfl⟩
      rcases List.mem_append.1 hc with hc | hc
      · exact isDigit_of_mem_digitsOf hc
      · exact isDigit_of_mem_zeros hc
  · next places exponent =>
    -- with zeros in front there is at least one digit before the point
    right
    have up : d.exponent.toNat = 0 := by rw [exponent]; rfl
    have down : (-d.exponent).toNat = places + 1 := by rw [exponent]; rfl
    generalize padding : List.replicate (places + 2 - (digitsOf d.significand).length) '0' ++
      digitsOf d.significand = padded
    have long : places + 2 ≤ padded.length := by
      rw [← padding, List.length_append, List.length_replicate]
      omega
    have digits : ∀ c ∈ padded, isDigit c = true := by
      intro c hc
      rw [← padding] at hc
      rcases List.mem_append.1 hc with hc | hc
      · exact isDigit_of_mem_zeros hc
      · exact isDigit_of_mem_digitsOf hc
    have count : (padded.take (padded.length - (places + 1))).length ≠ 0 := by
      rw [List.length_take]
      omega
    have count' : (padded.drop (padded.length - (places + 1))).length = places + 1 := by
      rw [List.length_drop]
      omega
    refine ⟨_, _, ?_, ?_, fun c hc => digits c (List.mem_of_mem_take hc),
      fun c hc => digits c (List.mem_of_mem_drop hc), ?_, rfl⟩
    · exact fun empty => count (by rw [empty]; rfl)
    · intro empty
      rw [empty] at count'
      cases count'
    · rw [up, down, count', List.take_append_drop, ← padding, numberOf_zeros_append, numberOf_digitsOf,
        tenTo_zero, Nat.mul_one]

namespace Constant

variable {c : Constant}

/-- A constant that is a number. -/
def IsFinite (c : Constant) : Prop := c.magnitude < BinaryFormat.single.infinity

/-- The decimal of a magnitude has a point with digits on both sides, and the digits spell the shortest
decimal of the magnitude. -/
theorem decimalText_shape (magnitude : Nat) : ∃ whole places, whole ≠ [] ∧ places ≠ [] ∧
    (∀ c ∈ whole, isDigit c = true) ∧ (∀ c ∈ places, isDigit c = true) ∧
    (BinaryFormat.single.shortest .up magnitude).SpelledBy whole places ∧
    decimalText magnitude = whole ++ '.' :: places := by
  unfold decimalText
  dsimp only
  rcases (BinaryFormat.single.shortest .up magnitude).positional_shape with
    ⟨nonempty, digits, spelled⟩ | shape
  · have pointless : (BinaryFormat.single.shortest .up magnitude).positional.contains '.' = false := by
      rw [Bool.eq_false_iff, ne_eq, List.contains_iff_mem]
      intro mem
      exact absurd (digits '.' mem) (by decide)
    rw [pointless]
    refine ⟨_, ['0'], nonempty, List.cons_ne_nil _ _, digits, ?_, ?_, rfl⟩
    · intro c hc
      rw [List.mem_singleton.1 hc]
      decide
    · -- the zero behind the point makes both sides ten times as large
      have zero : ['0'] = List.replicate 1 '0' := rfl
      rw [Decimal.SpelledBy, List.append_nil, List.length_nil, tenTo_zero, Nat.mul_one] at spelled
      rw [Decimal.SpelledBy, zero, numberOf_append_zeros, Nat.mul_right_comm, spelled, List.length_replicate]
  · obtain ⟨whole, places, nonempty, nonempty', digits, digits', spelled, same⟩ := shape
    have pointed : (BinaryFormat.single.shortest .up magnitude).positional.contains '.' = true := by
      rw [List.contains_iff_mem, same]
      simp
    rw [pointed]
    exact ⟨whole, places, nonempty, nonempty', digits, digits', spelled, same⟩

theorem toList_text (finite : c.IsFinite) :
    c.text.toList = (if c.isNegative then ['-'] else []) ++ decimalText c.magnitude := by
  have small : c.magnitude < BinaryFormat.single.infinity := finite
  unfold text
  dsimp only
  rw [if_neg (by omega), if_neg (by omega), String.toList_ofList]

/-- The tokens of a number with or without a minus sign. -/
def tokens (negative : Bool) (v : Numeral) (offset : Nat) : List Token :=
  if negative then [⟨.minus, offset⟩, ⟨.numeral v, offset + 1⟩] else [⟨.numeral v, offset⟩]

/-- The text of a finite constant is the shortest decimal of its magnitude, with a minus sign if the
constant is negative. -/
theorem spells_shortest (finite : c.IsFinite) : ∃ whole places,
    (BinaryFormat.single.shortest .up c.magnitude).SpelledBy whole places ∧
    ∀ offset, Spells c.text.toList offset (tokens c.isNegative (decimalNumeral whole places) offset) := by
  obtain ⟨whole, places, nonempty, -, digits, digits', spelled, same⟩ := decimalText_shape c.magnitude
  refine ⟨whole, places, spelled, fun offset => ?_⟩
  rw [toList_text finite, same, tokens]
  cases c.isNegative with
  | false => exact spells_decimal nonempty digits digits' offset
  | true => exact .symbol rfl (spells_decimal nonempty digits digits' (offset + 1))

/-- The text of a finite constant is a number, with a minus sign if the constant is negative. -/
theorem spells (finite : c.IsFinite) :
    ∃ v, ∀ offset, Spells c.text.toList offset (tokens c.isNegative v offset) := by
  obtain ⟨whole, places, -, spelled⟩ := spells_shortest finite
  exact ⟨decimalNumeral whole places, spelled⟩

/-- The text of a constant, read on its own, holds a number that becomes the constant. -/
def ReadsBack (c : Constant) : Prop :=
  ∃ ts v offset, tokenize c.text = .ok ts ∧ Token.mk (.numeral v) offset ∈ ts ∧
    v.constant c.isNegative = c

/-- The number that is read for a constant does not depend on the text around it. -/
theorem ReadsBack.exists_numeral (finite : c.IsFinite) (h : c.ReadsBack) :
    ∃ v, v.constant c.isNegative = c ∧
      ∀ offset, Spells c.text.toList offset (tokens c.isNegative v offset) := by
  obtain ⟨v, spelled⟩ := spells finite
  obtain ⟨ts, v', offset, read, mem, same⟩ := h
  have alone := spelled 0 [] [⟨.endOfInput, 0 + c.text.toList.length⟩] closes_nil (by rw [tokenizeFrom])
  rw [List.append_nil] at alone
  cases read.symm.trans alone
  have only : v' = v := by
    unfold tokens at mem
    split at mem
    · have both : v' = v ∧ offset = 1 := by simpa using mem
      exact both.1
    · have both : v' = v ∧ offset = 0 := by simpa using mem
      exact both.1
  exact ⟨v, only ▸ same, spelled⟩

theorem finite_minusOne : minusOne.IsFinite := by
  unfold IsFinite
  decide +kernel

/-- The constant `-1` is written with a minus sign, a digit before the point and one behind it. -/
theorem readsBack_minusOne : minusOne.ReadsBack := by
  have digits : ∀ c ∈ ['1'], isDigit c = true := List.forall_mem_singleton.2 rfl
  have digits' : ∀ c ∈ ['0'], isDigit c = true := List.forall_mem_singleton.2 rfl
  have written : minusOne.text.toList = '-' :: (['1'] ++ '.' :: ['0']) := by decide +kernel
  have spelled : Spells ('-' :: (['1'] ++ '.' :: ['0'])) 0 _ :=
    .symbol rfl (spells_decimal (List.cons_ne_nil _ _) digits digits' 1)
  have read := spelled [] _ closes_nil (by rw [tokenizeFrom])
  rw [List.append_nil, ← written] at read
  exact ⟨_, decimalNumeral ['1'] ['0'], 1, read, by simp, by decide +kernel⟩

end Constant

end ShaderDag
