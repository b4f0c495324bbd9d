import ShaderDag.Text.Token

/-!
# From characters to tokens

Blanks separate tokens; every other run of characters is cut into the longest names and numbers.  All
characters that can stand in a token take one byte, so offsets count characters.

* `isBlank`, `isNameStart`, `isNamePart`, `isDigit` — the character classes;
* `NumeralSpan.scan` — the longest number at the start of a text;
* `tokenize` — the tokens of a text, or the first problem.
-/

namespace ShaderDag

/-- The blanks that may stand between tokens. -/
def isBlank (c : Char) : Bool := c == ' ' || c == '\t' || c == '\n' || c == '\x0c' || c == '\r'

/-- Decimal digits. -/
def isDigit (c : Char) : Bool := '0' ≤ c && c ≤ '9'

/-- Characters that may start a name. -/
def isNameStart (c : Char) : Bool := ('a' ≤ c && c ≤ 'z') || ('A' ≤ c && c ≤ 'Z') || c == '_'

/-- Characters that may continue a name. -/
def isNamePart (c : Char) : Bool := isNameStart c || isDigit c

/-! ### Numbers -/

/-- A number at the start of a text: the digits before the point, the digits behind it if there is a
point, the exponent with its mark and sign if there is one, and the remaining text. -/
structure NumeralSpan where
  whole : List Char
  fraction : Option (List Char)
  exponent : Option (Char × Option Char × List Char)
  rest : List Char
deriving Repr

namespace NumeralSpan

/-- The characters of the number. -/
def characters (s : NumeralSpan) : List Char :=
  s.whole ++
    (match s.fraction with
      | some digits => '.' :: digits
      | none => []) ++
    (match s.exponent with
      | some (mark, sign, digits) => mark :: (sign.toList ++ digits)
      | none => [])

/-- The decimal number that the characters spell. -/
def decimal (s : NumeralSpan) : Decimal :=
  let places := s.fraction.getD []
  let power : Int :=
    match s.exponent with
    | some (_, some '-', digits) => -(numberOf digits : Int)
    | some (_, _, digits) => numberOf digits
    | none => 0
  ⟨numberOf (s.whole ++ places), power - places.length⟩

/-- The sign at the start of an exponent. -/
def signSpan : List Char → Option Char × List Char
  | '+' :: cs => (some '+', cs)
  | '-' :: cs => (some '-', cs)
  | cs => (none, cs)

/-- The longest number at the start of a text that starts with a digit, or with a point and a digit.
An exponent mark without digits is a problem; the result is then how many characters precede it. -/
def scan (cs : List Char) : Except Nat NumeralSpan :=
  let whole := cs.takeWhile isDigit
  let afterWhole := cs.dropWhile isDigit
  let (fraction, afterFraction) :=
    match afterWhole with
    | '.' :: ds => (some (ds.takeWhile isDigit), ds.dropWhile isDigit)
    | ds => (none, ds)
  match afterFraction with
  | mark :: ds =>
    if mark == 'e' || mark == 'E' then
      let (sign, es) := signSpan ds
      let digits := es.takeWhile isDigit
      if digits.isEmpty then .error (NumeralSpan.mk whole fraction none []).characters.length
      else .ok ⟨whole, fraction, some (mark, sign, digits), es.dropWhile isDigit⟩
    else .ok ⟨whole, fraction, none, mark :: ds⟩
  | [] => .ok ⟨whole, fraction, none, []⟩

end NumeralSpan

/-! ### Token lists -/

/-- The lexeme of a character that is a token on its own. -/
def symbolLexeme? : Char → Option Lexeme
  | '(' => some .openParen
  | ')' => some .closeParen
  | ',' => some .comma
  | '+' => some .plus
  | '-' => some .minus
  | '*' => some .star
  | _ => none

/-- Whether a number starts here: at a digit, or at a point with a digit behind it. -/
def startsNumeral (c : Char) (cs : List Char) : Bool :=
  isDigit c || (c == '.' && cs.head?.any isDigit)

theorem length_dropWhile_le (p : Char → Bool) (cs : List Char) :
    (cs.dropWhile p).length ≤ cs.length := by
  induction cs with
  | nil => simp
  | cons c cs ih =>
    rw [List.dropWhile_cons]
    split
    · exact Nat.le_succ_of_le ih
    · exact Nat.le_refl _

theorem NumeralSpan.length_signSpan_le (cs : List Char) : (signSpan cs).2.length ≤ cs.length := by
  unfold signSpan
  split <;> simp

theorem NumeralSpan.length_rest_lt {c : Char} {cs : List Char} {s : NumeralSpan}
    (start : startsNumeral c cs = true) (h : scan (c :: cs) = .ok s) :
    s.rest.length < (c :: cs).length := by
  have fraction_le : ∀ ds : List Char,
      (match ds with
        | '.' :: es => (some (es.takeWhile isDigit), es.dropWhile isDigit)
        | es => (none, es) : Option (List Char) × List Char).2.length ≤ ds.length := by
    intro ds
    split
    · exact Nat.le_succ_of_le (length_dropWhile_le _ _)
    · exact Nat.le_refl _
  have mantissa_lt :
      (match (c :: cs).dropWhile isDigit with
        | '.' :: es => (some (es.takeWhile isDigit), es.dropWhile isDigit)
        | es => (none, es) : Option (List Char) × List Char).2.length < (c :: cs).length := by
    cases hc : isDigit c with
    | true =>
      rw [List.dropWhile_cons, hc]
      exact Nat.lt_succ_of_le (Nat.le_trans (fraction_le _) (length_dropWhile_le _ _))
    | false =>
      have hpoint : c = '.' := by
        simp [startsNumeral, hc] at start
        exact start.1
      subst hpoint
      rw [List.dropWhile_cons, hc]
      exact Nat.lt_succ_of_le (length_dropWhile_le _ _)
  unfold scan at h
  simp only at h
  split at h
  · rename_i mark ds heq
    rw [heq] at mantissa_lt
    split at h
    · split at h
      · cases h
      · cases h
        have h1 := length_dropWhile_le isDigit (signSpan ds).2
        have h2 := length_signSpan_le ds
        simp only [List.length_cons] at mantissa_lt ⊢
        omega
    · cases h
      exact mantissa_lt
  · cases h
    simp

/-- The tokens of the text that starts at byte `offset`, closed by the end of the input. -/
def tokenizeFrom (offset : Nat) (cs : List Char) : Except SyntaxError (List Token) :=
  match cs with
  | [] => .ok [⟨.endOfInput, offset⟩]
  | c :: rest =>
    if isBlank c then tokenizeFrom (offset + 1) rest
    else if start : startsNumeral c rest = true then
      match h : NumeralSpan.scan (c :: rest) with
      | .error before => .error ⟨offset + before, .emptyExponent⟩
      | .ok span => do
        have := NumeralSpan.length_rest_lt start h
        let more ← tokenizeFrom (offset + span.characters.length) span.rest
        return ⟨.numeral (.ofDecimal span.decimal), offset⟩ :: more
    else if isNameStart c then do
      have : (rest.dropWhile isNamePart).length < rest.length + 1 :=
        Nat.lt_succ_of_le (length_dropWhile_le _ _)
      let name := c :: rest.takeWhile isNamePart
      let more ← tokenizeFrom (offset + name.length) (rest.dropWhile isNamePart)
      return ⟨.name (String.ofList name), offset⟩ :: more
    else
      match symbolLexeme? c with
      | some lexeme => do
        let more ← tokenizeFrom (offset + 1) rest
        return ⟨lexeme, offset⟩ :: more
      | none => .error ⟨offset, .strayCharacter c⟩
termination_by cs.length
decreasing_by
  all_goals simp only [List.length_cons] at *
  all_goals omega

/-- The tokens of a text. -/
def tokenize (source : String) : Except SyntaxError (List Token) := tokenizeFrom 0 source.toList

end ShaderDag
