import ShaderDag.Document.Writer
import ShaderDag.Proofs.Lexing

/-!
# Written tokens are read back

A written text has no blanks, so its tokens are told apart by their characters alone.  A quoted text ends
at its first bare quote, and punctuation and words are fixed; only a number depends on what stands behind
it, and behind a number comes a comma or a closing bracket.

* `Json.scanText?_quoted` — every text is read back from its quoted form;
* `Json.scanNumber?_natural` — and every number of 64 bits from its digits;
* `Json.Written` — the tokens of a value;
* `Json.Spelled` — tokens that can be read back one by one;
* `Json.Written.tokenize_eq` — the tokens of a value are read back from their text.
-/

namespace ShaderDag

namespace Json

/-! ### Quoted texts -/

/-- The rest of a quoted text, behind one more character. -/
theorem scanText?_behind (c : Char) (rest : List Char) :
    (do
      let (cs, more) ← scanText? rest
      return (c :: cs, more)) = (scanText? rest).map fun (cs, more) => (c :: cs, more) := by
  cases scanText? rest <;> rfl

theorem scanText?_escape {escape c : Char} (short : escape ≠ 'u') (known : simpleEscape? escape = some c)
    (rest : List Char) :
    scanText? ('\\' :: escape :: rest) = (scanText? rest).map fun (cs, more) => (c :: cs, more) := by
  rw [scanText?, known]
  · exact scanText?_behind c rest
  · exact fun _ _ _ _ _ same _ => short same

theorem hexUnit?_control : ∀ n, n < 0x20 →
    hexUnit? '0' '0' (hexDigit (n / 16)) (hexDigit (n % 16)) = some n := by
  decide

theorem scanText?_control {c : Char} (control : c.toNat < 0x20) (rest : List Char) :
    scanText? ('\\' :: 'u' :: '0' :: '0' :: hexDigit (c.toNat / 16) :: hexDigit (c.toNat % 16) :: rest) =
      (scanText? rest).map fun (cs, more) => (c :: cs, more) := by
  have low : isLowSurrogate c.toNat = false := by
    simp only [isLowSurrogate, Bool.and_eq_false_iff, decide_eq_false_iff_not]
    omega
  have high : isHighSurrogate c.toNat = false := by
    simp only [isHighSurrogate, Bool.and_eq_false_iff, decide_eq_false_iff_not]
    omega
  rw [scanText?, hexUnit?_control c.toNat control]
  simp only [Option.bind_eq_bind, Option.bind_some, low, high, Char.ofNat_toNat]
  exact scanText?_behind c rest

theorem scanText?_plain {c : Char} (quote : c ≠ '"') (backslash : c ≠ '\\') (printable : ¬c.toNat < 0x20)
    (rest : List Char) :
    scanText? (c :: rest) = (scanText? rest).map fun (cs, more) => (c :: cs, more) := by
  rw [scanText?]
  · rw [if_neg printable]
    exact scanText?_behind c rest
  · exact quote
  · exact fun _ _ _ _ _ same _ => backslash same
  · exact fun _ _ same _ => backslash same

/-- **Every character is read back from its quoted form.** -/
theorem scanText?_quoteChar (c : Char) (rest : List Char) :
    scanText? (quoteChar c ++ rest) = (scanText? rest).map fun (cs, more) => (c :: cs, more) := by
  simp only [quoteChar, beq_iff_eq]
  -- the seven escapes of two characters
  iterate 7
    split
    · next h =>
      subst h
      exact scanText?_escape (by decide) rfl rest
  split
  · next control => exact scanText?_control control rest
  · next quote backslash _ _ _ _ _ printable => exact scanText?_plain quote backslash printable rest

theorem scanText?_quoted (cs rest : List Char) :
    scanText? (cs.flatMap quoteChar ++ '"' :: rest) = some (cs, rest) := by
  induction cs with
  | nil => rw [List.flatMap_nil, List.nil_append, scanText?]
  | cons c cs ih => rw [List.flatMap_cons, List.append_assoc, scanText?_quoteChar, ih, Option.map_some]

/-! ### Numbers -/

theorem digitChar_eq_zero : ∀ n, n < 10 → n.digitChar = '0' → n = 0 := by decide

/-- Only zero starts with a zero. -/
theorem head?_toDigits {n : Nat} (zero : (Nat.toDigits 10 n).head? = some '0') : n = 0 := by
  induction n using Nat.strongRecOn with
  | ind n ih =>
    by_cases small : n < 10
    · rw [Nat.toDigits_of_lt_base small, List.head?_cons, Option.some.injEq] at zero
      exact digitChar_eq_zero n small zero
    · rw [Nat.toDigits_of_base_le (by omega) (by omega),
        List.head?_append_of_ne_nil _ Nat.toDigits_ne_nil] at zero
      have tens := ih (n / 10) (by omega) zero
      omega

theorem ofDigitChars_ge (ds : List Char) (n : Nat) : n ≤ Nat.ofDigitChars 10 ds n := by
  induction ds generalizing n with
  | nil => exact Nat.le_refl n
  | cons d ds ih =>
    rw [Nat.ofDigitChars_cons]
    exact Nat.le_trans (by omega) (ih _)

/-- All digits of a number that fits into 64 bits are collected. -/
theorem collect_eq {ds : List Char} :
    ∀ {n : Nat}, Nat.ofDigitChars 10 ds n < twoTo 64 → collect n ds = (Nat.ofDigitChars 10 ds n, []) := by
  induction ds with
  | nil => exact fun _ => rfl
  | cons d ds ih =>
    intro n fits
    have longer : 10 * n + numberOf [d] = 10 * n + (d.toNat - '0'.toNat) := by
      rw [numberOf, Nat.ofDigitChars_cons, Nat.mul_zero, Nat.zero_add]
      rfl
    rw [Nat.ofDigitChars_cons] at fits ⊢
    rw [collect, longer, if_pos (Nat.lt_of_le_of_lt (ofDigitChars_ge ds _) fits), ih fits]

theorem exists_toDigits (n : Nat) : ∃ d ds, Nat.toDigits 10 n = d :: ds ∧ isDigit d = true := by
  obtain ⟨d, ds, led⟩ := List.exists_cons_of_ne_nil (Nat.toDigits_ne_nil (n := n) (b := 10))
  have mem : d ∈ digitsOf n := by
    rw [digitsOf, led]
    exact List.mem_cons_self
  exact ⟨d, ds, led, isDigit_of_mem_digitsOf mem⟩

theorem wholeSpan?_toDigits {n : Nat} {rest : List Char}
    (stop : ∀ c, rest.head? = some c → isDigit c = false) :
    wholeSpan? (Nat.toDigits 10 n ++ rest) = some (Nat.toDigits 10 n, rest) := by
  obtain ⟨taken, dropped⟩ := span_append (fun c => isDigit_of_mem_digitsOf (n := n)) stop
  have taken : (Nat.toDigits 10 n ++ rest).takeWhile isDigit = Nat.toDigits 10 n := taken
  have dropped : (Nat.toDigits 10 n ++ rest).dropWhile isDigit = rest := dropped
  simp only [wholeSpan?, taken, dropped]
  split
  · next empty => exact absurd empty Nat.toDigits_ne_nil
  · next d ds led =>
    have zero : n = 0 := head?_toDigits (by rw [led]; rfl)
    subst zero
    cases led
  · rfl

theorem fractionSpan?_none {rest : List Char} (ends : EndsNumeral rest) :
    fractionSpan? rest = some (none, rest) := by
  unfold fractionSpan?
  split
  · exact absurd rfl (ends '.' rfl).2.1
  · rfl

theorem exponentSpan?_none {rest : List Char} (ends : EndsNumeral rest) :
    exponentSpan? rest = some (none, rest) := by
  cases rest with
  | nil => rfl
  | cons c rest =>
    obtain ⟨-, -, mark⟩ := ends c rfl
    rw [exponentSpan?, mark]
    rfl

/-- **Every number of 64 bits is read back from its digits.** -/
theorem scanNumber?_natural {n : Nat} {rest : List Char} (fits : n < twoTo 64) (ends : EndsNumeral rest) :
    scanNumber? ((toString (n : Int)).toList ++ rest) = some (.integer n, rest) := by
  have digits : (toString (n : Int)).toList = Nat.toDigits 10 n := Nat.toList_repr
  have whole := wholeSpan?_toDigits (n := n) fun c first => (ends c first).1
  have value : value? false (Nat.toDigits 10 n) none none = some (.integer n) := by
    have all : collect 0 (Nat.toDigits 10 n) = (n, []) := by
      rw [collect_eq (by rwa [Nat.ofDigitChars_ten_toDigits]), Nat.ofDigitChars_ten_toDigits]
    simp [value?, all]
  have unsigned : ∀ ds, Nat.toDigits 10 n ++ rest ≠ '-' :: ds := by
    obtain ⟨d, ds, led, digit⟩ := exists_toDigits n
    intro more same
    rw [led, List.cons_append, List.cons.injEq] at same
    rw [same.1] at digit
    exact absurd digit (by decide)
  rw [digits, scanNumber?]
  · rw [whole]
    simp only [Option.bind_eq_bind, Option.bind_some, fractionSpan?_none ends, exponentSpan?_none ends, value]
    rfl
  · exact unsigned

/-! ### Tokens -/

/-- A token is read back in front of some text, and starts with no blank. -/
structure Token.ReadBack (t : Token) (rest : List Char) : Prop where
  solid : ∃ c cs, t.characters = c :: cs ∧ isJsonBlank c = false
  scanned : scanToken? (t.characters ++ rest) = some (t, rest)

/-- Punctuation, words and texts. -/
def Token.isPlain : Token → Bool
  | .number _ | .broken => false
  | _ => true

/-- Punctuation, words and texts are read back in front of any text. -/
theorem Token.readBack {t : Token} (plain : t.isPlain = true) (rest : List Char) : t.ReadBack rest := by
  cases t with
  | number n => cases plain
  | broken => cases plain
  | text value =>
    refine ⟨⟨'"', _, rfl, by decide⟩, ?_⟩
    have body := scanText?_quoted value.toList rest
    show scanToken? ('"' :: value.toList.flatMap quoteChar ++ ['"'] ++ rest) = some (.text value, rest)
    rw [List.append_assoc, List.cons_append, List.singleton_append, scanToken?, body, Option.map_some]
    show some (text (String.ofList value.toList), rest) = some (text value, rest)
    rw [String.ofList_toList]
  | boolean value => cases value <;> exact ⟨⟨_, _, rfl, by decide⟩, rfl⟩
  | _ => exact ⟨⟨_, _, rfl, by decide⟩, rfl⟩

/-- What starts with a digit is a number. -/
theorem scanToken?_digit {d : Char} (digit : isDigit d = true) (cs : List Char) :
    scanToken? (d :: cs) = (scanNumber? (d :: cs)).map fun (n, rest) => (.number n, rest) := by
  unfold scanToken?
  split
  case h_11 => rfl
  all_goals
    next same =>
      cases same
      exact absurd digit (by decide)

theorem readBack_natural {n : Nat} {rest : List Char} (fits : n < twoTo 64) (ends : EndsNumeral rest) :
    (Token.number (.integer n)).ReadBack rest := by
  have digits : (Token.number (.integer n)).characters = Nat.toDigits 10 n := Nat.toList_repr
  have number : scanNumber? (Nat.toDigits 10 n ++ rest) = some (.integer n, rest) :=
    digits ▸ scanNumber?_natural fits ends
  obtain ⟨d, ds, led, digit⟩ := exists_toDigits n
  refine ⟨⟨d, ds, digits.trans led, ?_⟩, ?_⟩
  · rw [Bool.eq_false_iff]
    intro blank
    simp only [isJsonBlank, Bool.or_eq_true, beq_iff_eq] at blank
    rcases blank with ((rfl | rfl) | rfl) | rfl <;> exact absurd digit (by decide)
  · rw [digits]
    rw [led, List.cons_append] at number ⊢
    rw [scanToken?_digit digit, number, Option.map_some]

/-! ### Lists of tokens -/

/-- Tokens that are read back one by one, in front of some text. -/
def Spelled : List Token → List Char → Prop
  | [], _ => True
  | t :: ts, rest => t.ReadBack (ts.flatMap Token.characters ++ rest) ∧ Spelled ts rest

theorem spelled_append {ts us : List Token} {rest : List Char} :
    Spelled (ts ++ us) rest ↔ Spelled ts (us.flatMap Token.characters ++ rest) ∧ Spelled us rest := by
  induction ts with
  | nil => simp [Spelled]
  | cons t ts ih =>
    rw [List.cons_append, Spelled, Spelled, ih, List.flatMap_append, List.append_assoc, and_assoc]

theorem Spelled.length_le {ts : List Token} {rest : List Char} (h : Spelled ts rest) :
    ts.length ≤ (ts.flatMap Token.characters).length := by
  induction ts with
  | nil => exact Nat.le_refl 0
  | cons t ts ih =>
    obtain ⟨⟨c, cs, chars, -⟩, -⟩ := h.1
    have rest := ih h.2
    rw [List.flatMap_cons, List.length_append, List.length_cons, chars, List.length_cons]
    omega

theorem Spelled.tokens_eq {ts : List Token} (h : Spelled ts []) :
    ∀ count, ts.length ≤ count → tokens count (ts.flatMap Token.characters) = ts := by
  induction ts with
  | nil =>
    intro count _
    cases count <;> rfl
  | cons t ts ih =>
    intro count enough
    obtain ⟨⟨⟨c, cs, chars, solid⟩, scanned⟩, rest⟩ := h
    match count, enough with
    | count + 1, enough =>
      rw [List.append_nil] at scanned
      rw [List.flatMap_cons]
      rw [chars, List.cons_append] at scanned ⊢
      have kept : (c :: (cs ++ ts.flatMap Token.characters)).dropWhile isJsonBlank =
          c :: (cs ++ ts.flatMap Token.characters) := List.dropWhile_cons_of_neg (by simp [solid])
      simp only [tokens, kept, scanned, ih rest count (Nat.le_of_succ_le_succ enough)]

theorem Spelled.tokenize_eq {ts : List Token} (h : Spelled ts []) :
    tokenize (ts.flatMap Token.characters) = ts :=
  h.tokens_eq _ h.length_le

/-! ### Values -/

/-- The tokens of a value. -/
inductive Written : List Token → Prop where
  | null : Written [.null]
  | boolean (value : Bool) : Written [.boolean value]
  | natural {n : Nat} (fits : n < twoTo 64) : Written [.number (.integer n)]
  | text (value : String) : Written [.text value]
  | array {items : List (List Token)} (each : ∀ ts ∈ items, Written ts) : Written (arrayTokens items)
  | object {members : List (String × List Token)} (each : ∀ m ∈ members, Written m.2) :
      Written (objectTokens members)

/-- Tokens that are read back wherever they stand, as long as no number goes on behind them. -/
def Separable (ts : List Token) : Prop := ∀ rest, EndsNumeral rest → Spelled ts rest

theorem endsNumeral_cons {c : Char} (stop : isDigit c = false ∧ c ≠ '.' ∧ (c == 'e' || c == 'E') = false)
    (rest : List Char) : EndsNumeral (c :: rest) := by
  intro d first
  cases first
  exact stop

theorem separable_separated {items : List (List Token)} (each : ∀ ts ∈ items, Separable ts) :
    Separable (separated items) := by
  fun_induction separated items with
  | case1 => exact fun _ _ => trivial
  | case2 item => exact each item List.mem_cons_self
  | case3 item items _ ih =>
    intro rest ends
    have comma : EndsNumeral (',' :: ((separated items).flatMap Token.characters ++ rest)) :=
      endsNumeral_cons (by decide) _
    rw [spelled_append]
    refine ⟨each item List.mem_cons_self _ comma, Token.readBack rfl _, ?_⟩
    exact ih (fun ts mem => each ts (List.mem_cons_of_mem item mem)) rest ends

/-- What stands between brackets. -/
theorem separable_between {open' close : Token} {inner : List Token} (h : Separable inner)
    (opens : ∀ rest, open'.ReadBack rest) (closes : ∀ rest, close.ReadBack rest)
    (ends : ∀ rest, EndsNumeral (close.characters ++ rest)) :
    Separable (open' :: inner ++ [close]) := by
  intro rest _
  rw [List.cons_append, Spelled, spelled_append]
  exact ⟨opens _, h _ (by simpa using ends rest), closes _, trivial⟩

/-- **The tokens of a value are read back one by one.** -/
theorem Written.separable {ts : List Token} (h : Written ts) : Separable ts := by
  induction h with
  | null => exact fun rest _ => ⟨Token.readBack rfl _, trivial⟩
  | boolean value => exact fun rest _ => ⟨Token.readBack rfl _, trivial⟩
  | natural fits => exact fun rest ends => ⟨readBack_natural fits ends, trivial⟩
  | text value => exact fun rest _ => ⟨Token.readBack rfl _, trivial⟩
  | array _ ih =>
    exact separable_between (separable_separated ih) (Token.readBack rfl)
      (Token.readBack rfl) (endsNumeral_cons (by decide))
  | @object members _ ih =>
    refine separable_between (separable_separated ?_) (Token.readBack rfl)
      (Token.readBack rfl) (endsNumeral_cons (by decide))
    intro ts mem
    obtain ⟨⟨key, value⟩, there, rfl⟩ := List.mem_map.1 mem
    exact fun rest ends => ⟨Token.readBack rfl _, Token.readBack rfl _, ih _ there rest ends⟩

theorem Written.tokenize_eq {ts : List Token} (h : Written ts) :
    tokenize (ts.flatMap Token.characters) = ts :=
  (h.separable [] nofun).tokenize_eq

end Json

end ShaderDag
