import ShaderDag.Document.Basic
import ShaderDag.Proofs.Descent
import ShaderDag.Proofs.Lexing

/-!
# Definitions written in place

A name in expression text can be replaced by the text of its definition, in parentheses.  The lexemes around
it stay as they are, the text in parentheses is one operand, and so the new text is read as the old one with
an expression in the place of the name.

* `inlineText` — the text with a name replaced, wherever it is not called;
* `inlineLexemes`, `Lexes.inline` — what becomes of the lexemes;
* `Expression.Inlines` — expressions with other offsets, and with names replaced;
* `Derives.inline` — what becomes of a derivation, by induction on it;
* `Definition.parse_inline` — the new text is read, and as what.
-/

namespace ShaderDag

/-! ### Replacing a name -/

/-- The text with the name `x` replaced by `body`, wherever no opening parenthesis follows it. -/
def inlineText (x : String) (body : List Char) (cs : List Char) : List Char :=
  match cs with
  | [] => []
  | c :: rest =>
    if isNameStart c then
      have : (rest.dropWhile isNamePart).length < rest.length + 1 :=
        Nat.lt_succ_of_le (length_dropWhile_le _ _)
      let word := c :: rest.takeWhile isNamePart
      let after := rest.dropWhile isNamePart
      (if String.ofList word = x ∧ (after.dropWhile isBlank).head? ≠ some '(' then body else word) ++
        inlineText x body after
    else if start : startsNumeral c rest = true then
      match h : NumeralSpan.scan (c :: rest) with
      | .error _ => c :: rest
      | .ok span =>
        have := NumeralSpan.length_rest_lt start h
        span.characters ++ inlineText x body span.rest
    else c :: inlineText x body rest
termination_by cs.length
decreasing_by
  all_goals simp only [List.length_cons] at *
  all_goals omega

section Text

variable {x : String} {body : List Char}

theorem inlineText_plain {c : Char} {cs : List Char} (name : isNameStart c = false)
    (number : startsNumeral c cs = false) : inlineText x body (c :: cs) = c :: inlineText x body cs := by
  rw [inlineText]
  simp only [name, number]
  rfl

theorem inlineText_name {text : String} {rest : List Char} (spelled : isIdentifier text = true)
    (stop : ∀ c, rest.head? = some c → isNamePart c = false) :
    inlineText x body (text.toList ++ rest) =
      (if text = x ∧ (rest.dropWhile isBlank).head? ≠ some '(' then body else text.toList) ++
        inlineText x body rest := by
  cases written : text.toList with
  | nil => simp [isIdentifier, written] at spelled
  | cons c cs =>
    simp only [isIdentifier, written, Bool.and_eq_true, List.all_eq_true] at spelled
    obtain ⟨taken, dropped⟩ := span_append spelled.2 stop
    rw [List.cons_append, inlineText, if_pos spelled.1]
    simp only [taken, dropped, ← written, String.ofList_toList]

theorem isNameStart_of_startsNumeral {c : Char} {cs : List Char} (h : startsNumeral c cs = true) :
    isNameStart c = false := by
  rw [Bool.eq_false_iff]
  intro start
  rw [(nameStart_apart start).2 cs] at h
  cases h

theorem inlineText_numeral {span : NumeralSpan} (leads : span.Leads) :
    inlineText x body (span.characters ++ span.rest) = span.characters ++ inlineText x body span.rest := by
  obtain ⟨c, more, written, start⟩ := leads.starts
  have scanned := leads.scanned
  have start' := NumeralSpan.startsNumeral_append start span.rest
  rw [written, List.cons_append] at scanned ⊢
  rw [inlineText, if_neg (by simp [isNameStart_of_startsNumeral start]), dif_pos start']
  split
  · next before failed =>
    rw [failed] at scanned
    cases scanned
  · next span' found =>
    rw [found] at scanned
    cases scanned
    rw [written, List.cons_append]

/-- Text that starts with no name keeps its first character. -/
theorem head?_inlineText {cs : List Char} (other : ∀ c, cs.head? = some c → isNameStart c = false) :
    (inlineText x body cs).head? = cs.head? := by
  cases cs with
  | nil => rw [inlineText]
  | cons c rest =>
    have name := other c rfl
    rw [inlineText, if_neg (by simp [name])]
    split
    · next start =>
      split
      · rfl
      · next span found =>
        obtain ⟨more, written, -⟩ := NumeralSpan.exists_characters start found
        rw [written]
        rfl
    · rfl

/-- A number in front stays the longest one. -/
theorem mayFollow_inlineText (ends : ∀ rest, EndsNumeral (body ++ rest)) (cs : List Char) :
    MayFollow cs (inlineText x body cs) := by
  cases cs with
  | nil =>
    rw [inlineText]
    exact .refl []
  | cons c rest =>
    cases name : isNameStart c with
    | true =>
      rw [inlineText, if_pos name]
      dsimp only
      split
      · exact .inr (ends _)
      · exact .inl rfl
    | false =>
      refine .inl (head?_inlineText fun d first => ?_)
      cases first
      exact name

end Text

/-! ### Replacing a lexeme -/

/-- The lexemes with names replaced, wherever no opening parenthesis follows. -/
def inlineLexemes (bodies : String → Option (List Lexeme)) : List Lexeme → List Lexeme
  | [] => []
  | .name text :: ls =>
    (if ls.head? = some .openParen then [.name text] else (bodies text).getD [.name text]) ++
      inlineLexemes bodies ls
  | l :: ls => l :: inlineLexemes bodies ls

section Lexemes

variable {bodies : String → Option (List Lexeme)}

/-- Lexemes that stand between operands: no names, and nothing that makes a call of the name before it. -/
def Lexeme.Separates (l : Lexeme) : Prop := l ≠ .openParen ∧ ∀ text, l ≠ .name text

theorem separates_star : Lexeme.star.Separates := ⟨by nofun, by nofun⟩

theorem separates_comma : Lexeme.comma.Separates := ⟨by nofun, by nofun⟩

theorem separates_close : Lexeme.closeParen.Separates := ⟨by nofun, by nofun⟩

theorem inlineLexemes_cons {l : Lexeme} (other : ∀ text, l ≠ .name text) (ls : List Lexeme) :
    inlineLexemes bodies (l :: ls) = l :: inlineLexemes bodies ls := by
  rw [inlineLexemes]
  exact other

theorem inlineLexemes_append (ls : List Lexeme) {l : Lexeme} (separates : l.Separates)
    (ms : List Lexeme) :
    inlineLexemes bodies (ls ++ l :: ms) = inlineLexemes bodies ls ++ l :: inlineLexemes bodies ms := by
  induction ls with
  | nil => exact inlineLexemes_cons separates.2 ms
  | cons k ls ih =>
    by_cases name : ∃ text, k = .name text
    · obtain ⟨text, rfl⟩ := name
      have head : (ls ++ l :: ms).head? = some .openParen ↔ ls.head? = some .openParen := by
        cases ls with
        | nil => simp [separates.1]
        | cons => rfl
      rw [List.cons_append, inlineLexemes, inlineLexemes, ih, List.append_assoc]
      simp only [head]
    · have other : ∀ text, k ≠ .name text := not_exists.1 name
      rw [List.cons_append, inlineLexemes_cons other, inlineLexemes_cons other, ih, List.cons_append]

/-- The name of a call is kept. -/
theorem inlineLexemes_called (text : String) (ls : List Lexeme) :
    inlineLexemes bodies (.name text :: .openParen :: ls) =
      .name text :: .openParen :: inlineLexemes bodies ls := by
  rw [inlineLexemes, List.head?_cons, if_pos rfl, inlineLexemes_cons (by nofun)]
  rfl

theorem inlineLexemes_none (ls : List Lexeme) : inlineLexemes (fun _ => none) ls = ls := by
  fun_induction inlineLexemes (fun _ => none) ls with
  | case1 => rfl
  | case2 text ls ih => simp [ih]
  | case3 l ls other ih => rw [ih]

end Lexemes

/-- A blank starts neither a name nor a number. -/
theorem blank_apart {c : Char} (h : isBlank c = true) :
    isNameStart c = false ∧ ∀ rest, startsNumeral c rest = false := by
  constructor
  · rw [Bool.eq_false_iff]
    intro start
    rw [(nameStart_apart start).1] at h
    cases h
  · intro rest
    rw [Bool.eq_false_iff]
    intro start
    rw [isBlank_of_startsNumeral start] at h
    cases h

theorem symbol_ne_name {c : Char} {lexeme : Lexeme} (known : symbolLexeme? c = some lexeme) (text : String) :
    lexeme ≠ .name text := by
  rintro rfl
  unfold symbolLexeme? at known
  split at known <;> cases known

/-- The next lexeme is an opening parenthesis exactly if the next character but blanks is one. -/
theorem Lexes.opens_iff {cs : List Char} {ls : List Lexeme} (h : Lexes cs ls) :
    ls.head? = some .openParen ↔ (cs.dropWhile isBlank).head? = some '(' := by
  induction h with
  | nil => simp
  | blank skipped _ ih =>
    rw [List.dropWhile_cons, if_pos skipped]
    exact ih
  | @symbol c lexeme cs ls known _ _ =>
    rw [List.dropWhile_cons, (symbol_apart known).1]
    unfold symbolLexeme? at known
    split at known
    case h_7 => cases known
    all_goals
      cases known
      simp
  | @name text rest ls spelled _ _ _ =>
    cases written : text.toList with
    | nil => simp [isIdentifier, written] at spelled
    | cons c cs =>
      simp only [isIdentifier, written, Bool.and_eq_true] at spelled
      have other : c ≠ '(' := by
        rintro rfl
        exact absurd spelled.1 (by decide)
      rw [List.cons_append, List.dropWhile_cons, (nameStart_apart spelled.1).1]
      simp [other]
  | @numeral span ls leads _ _ =>
    obtain ⟨c, more, written, start⟩ := leads.starts
    have other : c ≠ '(' := by
      rintro rfl
      simp [startsNumeral, isDigit] at start
    rw [written, List.cons_append, List.dropWhile_cons, isBlank_of_startsNumeral start]
    simp [other]

/-- The lexemes of one name's body. -/
def bodyOf (x : String) (body : List Lexeme) (text : String) : Option (List Lexeme) :=
  if text = x then some body else none

/-- **The lexemes of a text with a name replaced.**  The body ends with a closing parenthesis, so whatever
follows is cut as before; and a number in front of it ends where it did. -/
theorem Lexes.inline {x : String} {front cs : List Char} {fs ls : List Lexeme} (h : Lexes cs ls)
    (lexed : Lexes front fs) (ends : ∀ rest, EndsNumeral (front ++ [')'] ++ rest)) :
    Lexes (inlineText x (front ++ [')']) cs) (inlineLexemes (bodyOf x (fs ++ [.closeParen])) ls) := by
  induction h with
  | nil =>
    rw [inlineText]
    exact .nil
  | @blank c cs ls skipped _ ih =>
    obtain ⟨name, number⟩ := blank_apart skipped
    rw [inlineText_plain name (number cs)]
    exact .blank skipped ih
  | @symbol c lexeme cs ls known _ ih =>
    obtain ⟨-, number, name⟩ := symbol_apart known
    rw [inlineText_plain name (number cs), inlineLexemes_cons (symbol_ne_name known)]
    exact .symbol known ih
  | @name text rest ls spelled stop more ih =>
    have closing : symbolLexeme? ')' = some .closeParen := rfl
    rw [inlineText_name spelled stop, inlineLexemes, bodyOf]
    by_cases replaced : text = x ∧ (rest.dropWhile isBlank).head? ≠ some '('
    · have variable' : ls.head? ≠ some .openParen := fun opens => replaced.2 (more.opens_iff.1 opens)
      rw [if_pos replaced, if_neg variable', if_pos replaced.1, Option.getD_some, List.append_assoc,
        List.append_assoc]
      exact lexed.append (closes_symbol closing _) (.symbol closing ih)
    · have kept : (if ls.head? = some .openParen then [Lexeme.name text] else
          (if text = x then some (fs ++ [.closeParen]) else none).getD [.name text]) = [.name text] := by
        split
        · rfl
        · next called =>
          have other : text ≠ x := fun same => replaced ⟨same, fun opens => called (more.opens_iff.2 opens)⟩
          rw [if_neg other, Option.getD_none]
      rw [if_neg replaced, kept]
      refine .name spelled (fun c first => stop c ?_) ih
      rwa [head?_inlineText] at first
      intro d found
      have part := stop d found
      rw [isNamePart, Bool.or_eq_false_iff] at part
      exact part.1
  | @numeral span ls leads _ ih =>
    have other : ∀ text, Lexeme.numeral (.ofDecimal span.decimal) ≠ .name text := by
      intro text same
      cases same
    rw [inlineText_numeral leads, inlineLexemes_cons other]
    exact .numeral (leads.follow (mayFollow_inlineText ends _)) ih

example : inlineText "x" "(a - b)".toList "2.0*x + x (1) - xx".toList =
    "2.0*(a - b) + x (1) - xx".toList := by decide +kernel

/-! ### Replacing an operand -/

mutual

/-- `e.Inlines R e'`: the expression `e'` is `e` with other offsets, and with expressions in the place of
some names, as `R` allows. -/
inductive Expression.Inlines (R : String → Expression → Prop) : Expression → Expression → Prop where
  | numeral (value : Numeral) : Inlines R (.numeral value) (.numeral value)
  | name (text : String) (o o' : Nat) : Inlines R (.name text o) (.name text o')
  | replaced {text : String} {e : Expression} (o : Nat) (allowed : R text e) : Inlines R (.name text o) e
  | negate {e e' : Expression} (o o' : Nat) (operand : Inlines R e e') :
      Inlines R (.negate e o) (.negate e' o')
  | binary (op : Operator) {l l' r r' : Expression} (o o' : Nat) (left : Inlines R l l')
      (right : Inlines R r r') : Inlines R (.binary op l r o) (.binary op l' r' o')
  | call (callee : String) {es es' : List Expression} (o o' : Nat) (args : InlinesAll R es es') :
      Inlines R (.call callee es o) (.call callee es' o')

/-- The same for the arguments of a call, one by one. -/
inductive Expression.InlinesAll (R : String → Expression → Prop) :
    List Expression → List Expression → Prop where
  | nil : InlinesAll R [] []
  | cons {e e' : Expression} {es es' : List Expression} (head : Inlines R e e')
      (tail : InlinesAll R es es') : InlinesAll R (e :: es) (e' :: es')

end

/-- The same expression at other offsets. -/
abbrev Expression.Relocates : Expression → Expression → Prop := Expression.Inlines fun _ _ => False

theorem Expression.InlinesAll.snoc {R : String → Expression → Prop} {es es' : List Expression}
    {e e' : Expression} (h : InlinesAll R es es') (last : e.Inlines R e') :
    InlinesAll R (es ++ [e]) (es' ++ [e']) := by
  match h with
  | .nil => exact .cons last .nil
  | .cons head tail => exact .cons head (tail.snoc last)

/-- What derivations from a nonterminal determine, with names replaced. -/
def Nonterminal.Inlines (R : String → Expression → Prop) : {α : Type} → Nonterminal α → α → α → Prop
  | _, .term, e, e' => e.Inlines R e'
  | _, .factor, e, e' => e.Inlines R e'
  | _, .unary, e, e' => e.Inlines R e'
  | _, .primary, e, e' => e.Inlines R e'
  | _, .arguments, es, es' => Expression.InlinesAll R es es'

section Derivations

variable {bodies : String → Option (List Lexeme)} {R : String → Expression → Prop}

theorem exists_token {us : List Token} {l : Lexeme} {ls : List Lexeme} (h : lexemes us = l :: ls) :
    ∃ offset rest, us = ⟨l, offset⟩ :: rest ∧ lexemes rest = ls := by
  obtain ⟨⟨lexeme, offset⟩, rest, rfl, rfl, more⟩ := List.map_eq_cons_iff.1 h
  exact ⟨offset, rest, rfl, more⟩

theorem eq_nil_of_lexemes {us : List Token} (h : lexemes us = []) : us = [] := List.map_eq_nil_iff.1 h

/-- Tokens around a separator are replaced on both sides of it. -/
theorem exists_tokens_around {ts us vs : List Token} {l : Lexeme} {o : Nat} (separates : l.Separates)
    (same : lexemes vs = inlineLexemes bodies (lexemes (ts ++ ⟨l, o⟩ :: us))) :
    ∃ ts' o' us', vs = ts' ++ ⟨l, o'⟩ :: us' ∧ lexemes ts' = inlineLexemes bodies (lexemes ts) ∧
      lexemes us' = inlineLexemes bodies (lexemes us) := by
  have around : lexemes (ts ++ ⟨l, o⟩ :: us) = lexemes ts ++ l :: lexemes us := by simp [lexemes]
  rw [around, inlineLexemes_append _ separates] at same
  obtain ⟨ts', rest, rfl, first, second⟩ := List.map_eq_append_iff.1 same
  obtain ⟨o', us', rfl, last⟩ := exists_token second
  exact ⟨ts', o', us', rfl, first, last⟩

/-- **Names replaced in a derivation.**  Every body derives an operand, wherever its tokens stand; so by
induction on the derivation the replaced tokens derive the expression with the names replaced. -/
theorem Derives.inline
    (operands : ∀ text body, bodies text = some body → ∀ us, lexemes us = body →
      ∃ e, Derives .primary us e ∧ R text e)
    {α : Type} {n : Nonterminal α} {ts : List Token} {a : α} (h : Derives n ts a) :
    ∀ us, lexemes us = inlineLexemes bodies (lexemes ts) → ∃ b, Derives n us b ∧ n.Inlines R a b := by
  induction h with
  | ofFactor _ ih =>
    intro us same
    obtain ⟨e, derived, inlined⟩ := ih us same
    exact ⟨e, .ofFactor derived, inlined⟩
  | ofUnary _ ih =>
    intro us same
    obtain ⟨e, derived, inlined⟩ := ih us same
    exact ⟨e, .ofUnary derived, inlined⟩
  | ofPrimary _ ih =>
    intro us same
    obtain ⟨e, derived, inlined⟩ := ih us same
    exact ⟨e, .ofPrimary derived, inlined⟩
  | lone _ ih =>
    intro us same
    obtain ⟨e, derived, inlined⟩ := ih us same
    exact ⟨[e], .lone derived, .cons inlined .nil⟩
  | @sum ts us l r t op _ sign _ ihLeft ihRight =>
    intro vs same
    obtain ⟨lexeme, offset⟩ := t
    have separates : lexeme.Separates := by
      constructor
      · rintro rfl
        cases sign
      · rintro text rfl
        cases sign
    obtain ⟨ts', offset', us', rfl, first, last⟩ := exists_tokens_around separates same
    obtain ⟨l', derivedL, inlinedL⟩ := ihLeft ts' first
    obtain ⟨r', derivedR, inlinedR⟩ := ihRight us' last
    exact ⟨_, .sum (t := ⟨lexeme, offset'⟩) derivedL sign derivedR,
      .binary op offset offset' inlinedL inlinedR⟩
  | @product ts us l r offset _ _ ihLeft ihRight =>
    intro vs same
    obtain ⟨ts', offset', us', rfl, first, last⟩ := exists_tokens_around separates_star same
    obtain ⟨l', derivedL, inlinedL⟩ := ihLeft ts' first
    obtain ⟨r', derivedR, inlinedR⟩ := ihRight us' last
    exact ⟨_, .product derivedL derivedR, .binary .mul offset offset' inlinedL inlinedR⟩
  | @more ts us es e o _ _ ihEarlier ihLast =>
    intro vs same
    obtain ⟨ts', o', us', rfl, first, last⟩ := exists_tokens_around separates_comma same
    obtain ⟨es', derived, inlined⟩ := ihEarlier ts' first
    obtain ⟨e', derivedE, inlinedE⟩ := ihLast us' last
    exact ⟨_, .more derived derivedE, inlined.snoc inlinedE⟩
  | @negate ts e offset _ ih =>
    intro vs same
    obtain ⟨offset', us, rfl, rest⟩ := exists_token (same.trans (inlineLexemes_cons (by nofun) _))
    obtain ⟨e', derived, inlined⟩ := ih us rest
    exact ⟨_, .negate derived, .negate offset offset' inlined⟩
  | numeral value offset =>
    intro vs same
    obtain ⟨offset', us, rfl, rest⟩ := exists_token same
    cases eq_nil_of_lexemes rest
    exact ⟨_, .numeral value offset', .numeral value⟩
  | name text offset =>
    intro vs same
    have alone : lexemes vs = (bodies text).getD [.name text] := by
      rw [same]
      simp [lexemes, inlineLexemes]
    cases found : bodies text with
    | none =>
      rw [found] at alone
      obtain ⟨offset', us, rfl, rest⟩ := exists_token alone
      cases eq_nil_of_lexemes rest
      exact ⟨_, .name text offset', .name text offset offset'⟩
    | some body =>
      rw [found] at alone
      obtain ⟨e, derived, allowed⟩ := operands text body found vs alone
      exact ⟨e, derived, .replaced offset allowed⟩
  | emptyCall text offset o c =>
    intro vs same
    obtain ⟨offset', us, rfl, opening⟩ := exists_token (same.trans (inlineLexemes_called text _))
    obtain ⟨o', us, rfl, closing⟩ := exists_token opening
    obtain ⟨c', us, rfl, behind⟩ := exists_token closing
    cases eq_nil_of_lexemes behind
    exact ⟨_, .emptyCall text offset' o' c', .call text offset offset' .nil⟩
  | @call text offset o c ts es _ ih =>
    intro vs same
    obtain ⟨offset', us, rfl, opening⟩ := exists_token (same.trans (inlineLexemes_called text _))
    obtain ⟨o', us, rfl, inside⟩ := exists_token opening
    obtain ⟨ts', c', us', rfl, first, last⟩ := exists_tokens_around separates_close inside
    cases eq_nil_of_lexemes last
    obtain ⟨es', derived, inlined⟩ := ih ts' first
    exact ⟨_, .call derived, .call text offset offset' inlined⟩
  | @group o c ts e _ ih =>
    intro vs same
    obtain ⟨o', us, rfl, rest⟩ := exists_token (same.trans (inlineLexemes_cons (by nofun) _))
    obtain ⟨ts', c', us', rfl, first, last⟩ := exists_tokens_around separates_close rest
    cases eq_nil_of_lexemes last
    obtain ⟨e', derived, inlined⟩ := ih ts' first
    exact ⟨e', .group derived, inlined⟩

/-- The same lexemes at other offsets derive the same expression. -/
theorem Derives.relocate {ts us : List Token} {e : Expression} (h : Derives .term ts e)
    (same : lexemes us = lexemes ts) : ∃ e', Derives .term us e' ∧ e.Relocates e' := by
  have kept : lexemes us = inlineLexemes (fun _ => none) (lexemes ts) := by rw [inlineLexemes_none, same]
  exact h.inline (fun _ _ found => by cases found) us kept

end Derivations

/-! ### Definitions -/

/-- A text is read as the expression that its lexemes derive. -/
theorem exists_derivation {source : String} {e : Expression} (h : parse source = .ok e) :
    ∃ ts, Lexes source.toList (lexemes ts) ∧ Derives .term ts e := by
  obtain ⟨tokens, run, parsed⟩ := except_bind_eq_ok_iff.1 h
  obtain ⟨ls, lexed⟩ := exists_lexes run
  obtain ⟨ts, last, run', rfl⟩ := lexed.tokens 0
  cases run.symm.trans run'
  exact ⟨ts, lexed, (parseTokens_eq_ok_iff lexed.only).1 parsed⟩

/-- A text whose lexemes derive something at all offsets is read. -/
theorem exists_parse {source : String} {ls : List Lexeme} {P : Expression → Prop}
    (lexed : Lexes source.toList ls) (derives : ∀ ts, lexemes ts = ls → ∃ e, Derives .term ts e ∧ P e) :
    ∃ e, parse source = .ok e ∧ P e := by
  obtain ⟨ts, last, run, same⟩ := lexed.tokens 0
  obtain ⟨e, derived, holds⟩ := derives ts same
  exact ⟨e, except_bind_eq_ok_iff.2 ⟨_, run, parseTokens_of_derives derived⟩, holds⟩

namespace Definition

/-- What stands in front of the text of a definition that is written in place. -/
def opening (d : Definition) : List Char := if d.varying then "varying(".toList else ['(']

/-- The text that says the same as the name of a definition. -/
def replacement (d : Definition) : List Char := d.opening ++ d.source.toList ++ [')']

/-- Expression text with a definition written in place of its name. -/
def inline (d : Definition) (source : String) : String :=
  String.ofList (inlineText d.name d.replacement source.toList)

/-- A later definition with this one written in place of its name. -/
def inlineInto (d later : Definition) : Definition := { later with source := d.inline later.source }

/-- The expression of a definition's text, at any offsets, as a varying if the definition is one. -/
def Spells (d : Definition) (e : Expression) : Prop :=
  ∃ own moved offset, parse d.source = .ok own ∧ own.Relocates moved ∧
    e = if d.varying then .call "varying" [moved] offset else moved

/-- The lexemes in front of the text. -/
def openingLexemes (d : Definition) : List Lexeme :=
  if d.varying then [.name "varying", .openParen] else [.openParen]

theorem lexes_opening (d : Definition) {cs : List Char} {ls : List Lexeme} (h : Lexes cs ls) :
    Lexes (d.opening ++ cs) (d.openingLexemes ++ ls) := by
  have bracket : Lexes ('(' :: cs) (.openParen :: ls) := .symbol rfl h
  unfold opening openingLexemes
  split
  · have stop : ∀ c, ('(' :: cs).head? = some c → isNamePart c = false := by
      intro c first
      cases first
      decide
    have named : Lexes ("varying".toList ++ '(' :: cs) (.name "varying" :: .openParen :: ls) :=
      .name (by decide +kernel) stop bracket
    exact named
  · exact bracket

theorem endsNumeral_replacement (d : Definition) (rest : List Char) :
    EndsNumeral (d.replacement ++ rest) := by
  intro c first
  unfold replacement opening at first
  split at first <;>
  · cases first
    decide

/-- The replacement is an operand that spells the definition. -/
theorem derives_replacement {d : Definition} {own : Expression} {ts us : List Token}
    (parsed : parse d.source = .ok own) (derived : Derives .term ts own)
    (same : lexemes us = d.openingLexemes ++ lexemes ts ++ [.closeParen]) :
    ∃ e, Derives .primary us e ∧ d.Spells e := by
  obtain ⟨front, back, rfl, first, last⟩ := List.map_eq_append_iff.1 same
  obtain ⟨opens, ts', rfl, lead, inside⟩ := List.map_eq_append_iff.1 first
  obtain ⟨c, _, rfl, behind⟩ := exists_token last
  cases eq_nil_of_lexemes behind
  obtain ⟨moved, derived', relocated⟩ := derived.relocate inside
  unfold openingLexemes at lead
  cases interpolated : d.varying with
  | true =>
    rw [if_pos interpolated] at lead
    obtain ⟨offset, _, rfl, bracket⟩ := exists_token lead
    obtain ⟨o, _, rfl, nothing⟩ := exists_token bracket
    cases eq_nil_of_lexemes nothing
    exact ⟨_, .call (.lone derived'), own, moved, offset, parsed, relocated, by rw [if_pos interpolated]⟩
  | false =>
    rw [if_neg (by simp [interpolated])] at lead
    obtain ⟨o, _, rfl, nothing⟩ := exists_token lead
    cases eq_nil_of_lexemes nothing
    exact ⟨_, .group derived', own, moved, 0, parsed, relocated, by rw [if_neg (by simp [interpolated])]⟩

/-- **A text with a definition written in place is read**, as the expression of the text with expressions of
the definition in the place of its name. -/
theorem parse_inline {d : Definition} {source : String} {own e : Expression}
    (parsed : parse d.source = .ok own) (h : parse source = .ok e) :
    ∃ e', parse (d.inline source) = .ok e' ∧
      e.Inlines (fun text value => text = d.name ∧ d.Spells value) e' := by
  obtain ⟨ts, lexed, derived⟩ := exists_derivation h
  obtain ⟨ds, lexedOwn, derivedOwn⟩ := exists_derivation parsed
  have inlined := lexed.inline (x := d.name) (d.lexes_opening lexedOwn) d.endsNumeral_replacement
  refine exists_parse (by rw [inline, String.toList_ofList]; exact inlined) fun us same => ?_
  refine derived.inline (fun text body found vs spelled => ?_) us same
  unfold bodyOf at found
  split at found
  · next named =>
    cases found
    obtain ⟨value, operand, spells⟩ := derives_replacement parsed derivedOwn spelled
    exact ⟨value, operand, named, spells⟩
  · cases found

end Definition

end ShaderDag
