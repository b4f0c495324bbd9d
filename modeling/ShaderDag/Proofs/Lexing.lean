import ShaderDag.Proofs.Spelling

/-!
# How text is cut into lexemes

Where a name or a number ends depends on the next character only.  So the lexemes of a text can be said
without offsets, and a piece of text keeps its lexemes wherever it is put, as long as what follows it does
not run on.

* `MayFollow` — what may stand behind a number in place of something else;
* `NumeralSpan.scan_follow` — the longest number is the same in front of it;
* `Lexes` — text and its lexemes, word by word;
* `Lexes.tokens`, `exists_lexes` — the texts with lexemes are those with tokens;
* `Lexes.append` — texts behind each other.
-/

namespace ShaderDag

/-! ### What ends a number -/

/-- Text that goes on with no number: it starts with no digit, point or exponent mark. -/
def EndsNumeral (rest : List Char) : Prop :=
  ∀ c, rest.head? = some c → isDigit c = false ∧ c ≠ '.' ∧ (c == 'e' || c == 'E') = false

/-- Text that may stand behind a number in place of other text: it starts alike, or ends every number. -/
def MayFollow (rest rest' : List Char) : Prop := rest'.head? = rest.head? ∨ EndsNumeral rest'

namespace MayFollow

variable {rest rest' : List Char}

theorem refl (rest : List Char) : MayFollow rest rest := .inl rfl

theorem append (h : MayFollow rest rest') (cs : List Char) : MayFollow (cs ++ rest) (cs ++ rest') := by
  cases cs with
  | nil => exact h
  | cons c cs => exact .inl rfl

/-- What holds of the first character of the one text holds of that of the other, if it holds of all text
that ends numbers. -/
theorem transfer {P : Char → Prop} (h : MayFollow rest rest')
    (ends : ∀ c, isDigit c = false → c ≠ '.' → (c == 'e' || c == 'E') = false → P c)
    (stop : ∀ c, rest.head? = some c → P c) : ∀ c, rest'.head? = some c → P c := by
  intro c first
  rcases h with same | other
  · exact stop c (same ▸ first)
  · obtain ⟨digit, point, mark⟩ := other c first
    exact ends c digit point mark

theorem digit (h : MayFollow rest rest') (stop : ∀ c, rest.head? = some c → isDigit c = false) :
    ∀ c, rest'.head? = some c → isDigit c = false :=
  h.transfer (fun _ digit _ _ => digit) stop

end MayFollow

theorem Closes.endsNumeral {rest : List Char} (h : Closes rest) : EndsNumeral rest := by
  intro c first
  obtain ⟨part, point⟩ := h c first
  have digit : isDigit c = false := by
    rw [isNamePart, Bool.or_eq_false_iff] at part
    exact part.2
  refine ⟨digit, point, ?_⟩
  rw [Bool.or_eq_false_iff, beq_eq_false_iff_ne, beq_eq_false_iff_ne]
  constructor
  all_goals
    intro same
    subst same
    exact absurd part (by decide)

/-! ### Numbers -/

theorem digits_of_takeWhile (cs : List Char) : ∀ c ∈ cs.takeWhile isDigit, isDigit c = true :=
  List.all_eq_true.1 List.all_takeWhile

theorem head?_dropWhile_not {p : Char → Bool} (cs : List Char) :
    ∀ c, (cs.dropWhile p).head? = some c → p c = false := by
  intro c first
  have := List.head?_dropWhile_not p cs
  rw [first] at this
  simpa using this

namespace NumeralSpan

variable {whole : List Char} {fraction : Option (List Char)} {after cs rest : List Char}
  {span : NumeralSpan}

/-- The end of a scan: an exponent, if there is one. -/
def scanExponent (whole : List Char) (fraction : Option (List Char)) : List Char → Except Nat NumeralSpan
  | mark :: ds =>
    if mark == 'e' || mark == 'E' then
      let digits := (signSpan ds).2.takeWhile isDigit
      if digits.isEmpty then .error (NumeralSpan.mk whole fraction none []).characters.length
      else .ok ⟨whole, fraction, some (mark, (signSpan ds).1, digits), (signSpan ds).2.dropWhile isDigit⟩
    else .ok ⟨whole, fraction, none, mark :: ds⟩
  | [] => .ok ⟨whole, fraction, none, []⟩

/-- A scan takes the digits, then the point with its digits, then the exponent. -/
theorem scan_point {ds : List Char} (point : cs.dropWhile isDigit = '.' :: ds) :
    scan cs = scanExponent (cs.takeWhile isDigit) (some (ds.takeWhile isDigit)) (ds.dropWhile isDigit) := by
  simp only [scan, point]
  rfl

theorem scan_noPoint (noPoint : ∀ c, (cs.dropWhile isDigit).head? = some c → c ≠ '.') :
    scan cs = scanExponent (cs.takeWhile isDigit) none (cs.dropWhile isDigit) := by
  unfold scan
  cases found : cs.dropWhile isDigit with
  | nil => rfl
  | cons c ds =>
    have other : c ≠ '.' := noPoint c (by rw [found]; rfl)
    simp [scanExponent, other]

/-- A sign in front of digits is read alone. -/
theorem signSpan_append (ds : List Char) {digits : List Char}
    (first : ∃ d, digits.head? = some d ∧ isDigit d = true) (rest : List Char) :
    signSpan ((signSpan ds).1.toList ++ (digits ++ rest)) = ((signSpan ds).1, digits ++ rest) := by
  have signs : (signSpan ds).1 = some '+' ∨ (signSpan ds).1 = some '-' ∨ (signSpan ds).1 = none := by
    unfold signSpan
    split <;> simp
  rcases signs with sign | sign | sign
  · rw [sign]
    rfl
  · rw [sign]
    rfl
  · obtain ⟨d, head, digit⟩ := first
    obtain ⟨more, rfl⟩ := List.head?_eq_some_iff.1 head
    rw [sign, Option.toList_none, List.nil_append, List.cons_append, signSpan]
    · rintro cs ⟨⟩
      exact absurd digit (by decide)
    · rintro cs ⟨⟩
      exact absurd digit (by decide)

theorem signSpan_eq (ds : List Char) : ds = (signSpan ds).1.toList ++ (signSpan ds).2 := by
  unfold signSpan
  split <;> rfl

/-- Without an exponent mark there is no exponent. -/
theorem scanExponent_plain (stop : ∀ c, rest.head? = some c → (c == 'e' || c == 'E') = false) :
    scanExponent whole fraction rest = .ok ⟨whole, fraction, none, rest⟩ := by
  cases rest with
  | nil => rfl
  | cons c rest =>
    rw [scanExponent, if_neg]
    simp [stop c rfl]

/-- The exponent is the same in front of whatever may follow. -/
theorem scanExponent_follow (h : scanExponent whole fraction after = .ok span) :
    ∃ tail, after = tail ++ span.rest ∧
      span.characters = (NumeralSpan.mk whole fraction none []).characters ++ tail ∧
      ∀ rest, MayFollow span.rest rest →
        scanExponent whole fraction (tail ++ rest) = .ok { span with rest := rest } := by
  cases after with
  | nil =>
    cases h
    refine ⟨[], rfl, by simp, fun rest follow => scanExponent_plain ?_⟩
    exact follow.transfer (fun _ _ _ mark => mark) nofun
  | cons mark ds =>
    rw [scanExponent] at h
    split at h
    · next exponent =>
      dsimp only at h
      split at h
      · cases h
      · next nonempty =>
        cases h
        obtain ⟨d, digits, taken⟩ : ∃ d digits, (signSpan ds).2.takeWhile isDigit = d :: digits :=
          List.exists_cons_of_ne_nil (by simpa using nonempty)
        have all := digits_of_takeWhile (signSpan ds).2
        have split : (signSpan ds).2 = (signSpan ds).2.takeWhile isDigit ++
          (signSpan ds).2.dropWhile isDigit := List.takeWhile_append_dropWhile.symm
        refine ⟨mark :: ((signSpan ds).1.toList ++ (signSpan ds).2.takeWhile isDigit), ?_, ?_, ?_⟩
        · rw [List.cons_append, List.append_assoc, ← split, ← signSpan_eq]
        · simp [characters]
        · intro rest follow
          have stop := follow.digit (head?_dropWhile_not _)
          obtain ⟨exact, behind⟩ := span_append all stop
          have first : ∃ d, ((signSpan ds).2.takeWhile isDigit).head? = some d ∧ isDigit d = true :=
            ⟨d, by rw [taken]; rfl, all d (by simp [taken])⟩
          have sign := signSpan_append ds first rest
          rw [List.cons_append, List.append_assoc, scanExponent, if_pos exponent]
          simp only [sign, exact, behind]
          rw [if_neg (by simp [taken])]
    · next other =>
      cases h
      refine ⟨[], rfl, by simp [characters], fun rest follow => scanExponent_plain ?_⟩
      refine follow.transfer (fun _ _ _ mark => mark) fun c first => ?_
      cases first
      simpa using other

/-- **A number is the same in front of whatever may follow it.** -/
theorem scan_follow (h : scan cs = .ok span) : cs = span.characters ++ span.rest ∧
    ∀ rest, MayFollow span.rest rest → scan (span.characters ++ rest) = .ok { span with rest := rest } := by
  have split : cs.takeWhile isDigit ++ cs.dropWhile isDigit = cs := List.takeWhile_append_dropWhile
  have digits := digits_of_takeWhile cs
  by_cases point : ∃ ds, cs.dropWhile isDigit = '.' :: ds
  · obtain ⟨ds, point⟩ := point
    rw [scan_point point] at h
    obtain ⟨tail, behind, written, again⟩ := scanExponent_follow h
    have places : ds.takeWhile isDigit ++ ds.dropWhile isDigit = ds := List.takeWhile_append_dropWhile
    have chars : span.characters = cs.takeWhile isDigit ++ ('.' :: (ds.takeWhile isDigit ++ tail)) := by
      rw [written]
      simp [characters]
    refine ⟨?_, fun rest follow => ?_⟩
    · rw [chars, List.append_assoc, List.cons_append, List.append_assoc, ← behind, places, ← point, split]
    · have stop : ∀ c, (tail ++ rest).head? = some c → isDigit c = false := by
        refine (follow.append tail).digit ?_
        rw [← behind]
        exact head?_dropWhile_not ds
      have atPoint : ∀ c, ('.' :: (ds.takeWhile isDigit ++ (tail ++ rest))).head? = some c →
          isDigit c = false := by
        intro c first
        cases first
        decide
      obtain ⟨taken, dropped⟩ := span_append digits atPoint
      obtain ⟨taken', dropped'⟩ := span_append (digits_of_takeWhile ds) stop
      rw [chars, List.append_assoc, List.cons_append, List.append_assoc, scan_point dropped, taken, taken',
        dropped', again rest follow]
  · have noPoint : ∀ c, (cs.dropWhile isDigit).head? = some c → c ≠ '.' := by
      rintro c first rfl
      obtain ⟨ds, same⟩ := List.head?_eq_some_iff.1 first
      exact point ⟨ds, same⟩
    rw [scan_noPoint noPoint] at h
    obtain ⟨tail, behind, written, again⟩ := scanExponent_follow h
    have chars : span.characters = cs.takeWhile isDigit ++ tail := by
      rw [written]
      simp [characters]
    refine ⟨by rw [chars, List.append_assoc, ← behind, split], fun rest follow => ?_⟩
    have follow' : MayFollow (cs.dropWhile isDigit) (tail ++ rest) := by
      rw [behind]
      exact follow.append tail
    obtain ⟨taken, dropped⟩ := span_append digits (follow'.digit (head?_dropWhile_not cs))
    have noPoint' : ∀ c, ((cs.takeWhile isDigit ++ (tail ++ rest)).dropWhile isDigit).head? = some c →
        c ≠ '.' := by
      rw [dropped]
      exact follow'.transfer (fun _ _ point _ => point) noPoint
    rw [chars, List.append_assoc, scan_noPoint noPoint', taken, dropped, again rest follow]

/-- A number is written with its first character, and with a digit behind a point in front. -/
theorem exists_characters {c : Char} (start : startsNumeral c cs = true) (h : scan (c :: cs) = .ok span) :
    ∃ more, span.characters = c :: more ∧ startsNumeral c more = true := by
  cases digit : isDigit c with
  | true =>
    obtain ⟨split, -⟩ := scan_follow h
    have shorter := length_rest_lt start h
    cases written : span.characters with
    | nil =>
      rw [written, List.nil_append] at split
      rw [split] at shorter
      exact absurd shorter (Nat.lt_irrefl _)
    | cons d more =>
      rw [written] at split
      cases split
      exact ⟨more, rfl, by simp [startsNumeral, digit]⟩
  | false =>
    obtain ⟨rfl, d, ds, rfl, digit'⟩ : c = '.' ∧ ∃ d ds, cs = d :: ds ∧ isDigit d = true := by
      cases cs with
      | nil => simp [startsNumeral, digit] at start
      | cons d ds => simpa [startsNumeral, digit] using start
    have point : ('.' :: d :: ds).dropWhile isDigit = '.' :: d :: ds := by
      rw [List.dropWhile_cons, digit]
      rfl
    rw [scan_point point] at h
    obtain ⟨tail, -, written, -⟩ := scanExponent_follow h
    rw [List.takeWhile_cons, digit, List.takeWhile_cons, digit'] at written
    exact ⟨_, written, by simp [startsNumeral, digit']⟩

/-- The number is the longest one at the start of its text. -/
structure Leads (span : NumeralSpan) : Prop where
  scanned : scan (span.characters ++ span.rest) = .ok span
  starts : ∃ c more, span.characters = c :: more ∧ startsNumeral c more = true

theorem Leads.follow (h : span.Leads) (follow : MayFollow span.rest rest) :
    Leads { span with rest := rest } :=
  ⟨(scan_follow h.scanned).2 rest follow, h.starts⟩

theorem startsNumeral_append {c : Char} {more : List Char} (h : startsNumeral c more = true)
    (rest : List Char) : startsNumeral c (more ++ rest) = true := by
  cases more with
  | nil =>
    have digit : isDigit c = true := by simpa [startsNumeral] using h
    simp [startsNumeral, digit]
  | cons d more => exact h

end NumeralSpan

/-! ### Texts and their lexemes -/

/-- `Lexes cs ls`: the text `cs` is cut into the lexemes `ls`. -/
inductive Lexes : List Char → List Lexeme → Prop where
  | nil : Lexes [] []
  | blank {c : Char} {cs : List Char} {ls : List Lexeme} (skipped : isBlank c = true)
      (more : Lexes cs ls) : Lexes (c :: cs) ls
  | symbol {c : Char} {lexeme : Lexeme} {cs : List Char} {ls : List Lexeme}
      (known : symbolLexeme? c = some lexeme) (more : Lexes cs ls) : Lexes (c :: cs) (lexeme :: ls)
  | name {text : String} {rest : List Char} {ls : List Lexeme} (spelled : isIdentifier text = true)
      (stop : ∀ c, rest.head? = some c → isNamePart c = false) (more : Lexes rest ls) :
      Lexes (text.toList ++ rest) (.name text :: ls)
  | numeral {span : NumeralSpan} {ls : List Lexeme} (leads : span.Leads) (more : Lexes span.rest ls) :
      Lexes (span.characters ++ span.rest) (.numeral (.ofDecimal span.decimal) :: ls)

/-- The lexemes of tokens, without their offsets. -/
def lexemes (ts : List Token) : List Lexeme := ts.map (·.lexeme)

/-- No lexeme of a text is the end of the input. -/
theorem Lexes.end_not_mem {cs : List Char} {ls : List Lexeme} (h : Lexes cs ls) :
    Lexeme.endOfInput ∉ ls := by
  induction h with
  | nil => exact List.not_mem_nil
  | blank _ _ ih => exact ih
  | @symbol c lexeme cs ls known _ ih =>
    have other : lexeme ≠ .endOfInput := by
      intro same
      subst same
      unfold symbolLexeme? at known
      split at known <;> cases known
    simpa [other.symm] using ih
  | name _ _ _ ih | numeral _ _ ih => simpa using ih

theorem Lexes.only {cs : List Char} {ts : List Token} (h : Lexes cs (lexemes ts)) :
    ∀ t ∈ ts, t.lexeme ≠ .endOfInput := by
  intro t ht same
  exact h.end_not_mem (same ▸ List.mem_map_of_mem ht)

/-- Tokens in front of the end of the input. -/
def TokensOf (ls : List Lexeme) (result : Except SyntaxError (List Token)) : Prop :=
  ∃ ts last, result = .ok (ts ++ [⟨.endOfInput, last⟩]) ∧ lexemes ts = ls

theorem TokensOf.cons {ls : List Lexeme} {result : Except SyntaxError (List Token)}
    (h : TokensOf ls result) (t : Token) :
    TokensOf (t.lexeme :: ls) (do let more ← result; return t :: more) := by
  obtain ⟨ts, last, rfl, rfl⟩ := h
  exact ⟨t :: ts, last, rfl, rfl⟩

theorem isBlank_of_startsNumeral {c : Char} {cs : List Char} (h : startsNumeral c cs = true) :
    isBlank c = false := by
  rw [startsNumeral, Bool.or_eq_true, Bool.and_eq_true, beq_iff_eq] at h
  rcases h with digit | ⟨rfl, -⟩
  · exact isBlank_of_isDigit digit
  · decide

theorem tokenizeFrom_numeral {span : NumeralSpan} (leads : span.Leads) (offset : Nat) :
    tokenizeFrom offset (span.characters ++ span.rest) = do
      let more ← tokenizeFrom (offset + span.characters.length) span.rest
      return ⟨.numeral (.ofDecimal span.decimal), offset⟩ :: more := by
  obtain ⟨c, more, written, start⟩ := leads.starts
  have scanned := leads.scanned
  have start' := NumeralSpan.startsNumeral_append start span.rest
  rw [written, List.cons_append] at scanned ⊢
  rw [tokenizeFrom, if_neg (by simp [isBlank_of_startsNumeral start]), dif_pos start']
  split
  · next before failed =>
    rw [failed] at scanned
    cases scanned
  · next span' found =>
    rw [found] at scanned
    cases scanned
    rw [written]

/-- **A text with lexemes has tokens.** -/
theorem Lexes.tokens {cs : List Char} {ls : List Lexeme} (h : Lexes cs ls) (offset : Nat) :
    TokensOf ls (tokenizeFrom offset cs) := by
  induction h generalizing offset with
  | nil => exact ⟨[], offset, by rw [tokenizeFrom]; rfl, rfl⟩
  | blank skipped _ ih =>
    rw [tokenizeFrom_blank skipped]
    exact ih _
  | symbol known _ ih =>
    rw [tokenizeFrom_symbol known]
    exact (ih _).cons ⟨_, offset⟩
  | name spelled stop _ ih =>
    rw [tokenizeFrom_name spelled stop]
    exact (ih _).cons ⟨_, offset⟩
  | numeral leads _ ih =>
    rw [tokenizeFrom_numeral leads]
    exact (ih _).cons ⟨_, offset⟩

/-- **A text with tokens has lexemes**, by induction along the run of the lexer. -/
theorem exists_lexes {cs : List Char} {offset : Nat} {ts : List Token}
    (h : tokenizeFrom offset cs = .ok ts) : ∃ ls, Lexes cs ls := by
  fun_induction tokenizeFrom offset cs generalizing ts with
  | case1 offset => exact ⟨[], .nil⟩
  | case2 offset c rest blank ih =>
    obtain ⟨ls, more⟩ := ih h
    exact ⟨ls, .blank blank more⟩
  | case3 offset c rest blank start before failed => cases h
  | case4 offset c rest blank start span scanned _ ih =>
    obtain ⟨us, run, -⟩ := except_bind_eq_ok_iff.1 h
    obtain ⟨ls, more⟩ := ih run
    obtain ⟨split, -⟩ := NumeralSpan.scan_follow scanned
    obtain ⟨word, written, start'⟩ := NumeralSpan.exists_characters start scanned
    rw [split] at scanned ⊢
    exact ⟨_, .numeral ⟨scanned, c, word, written, start'⟩ more⟩
  | case5 offset c rest blank number start _ name =>
    rename_i ih
    obtain ⟨us, run, -⟩ := except_bind_eq_ok_iff.1 h
    obtain ⟨ls, more⟩ := ih run
    have spelled : isIdentifier (String.ofList name) = true := by
      simp [isIdentifier, name, start]
    have split : c :: rest = (String.ofList name).toList ++ rest.dropWhile isNamePart := by
      simp [name]
    rw [split]
    exact ⟨_, .name spelled (head?_dropWhile_not rest) more⟩
  | case6 offset c rest blank number start lexeme known ih =>
    obtain ⟨us, run, -⟩ := except_bind_eq_ok_iff.1 h
    obtain ⟨ls, more⟩ := ih run
    exact ⟨_, .symbol known more⟩
  | case7 offset c rest blank number start unknown => cases h

/-- Texts behind each other: the first one keeps its lexemes if the second one closes it. -/
theorem Lexes.append {cs ds : List Char} {ls ms : List Lexeme} (h : Lexes cs ls) (closed : Closes ds)
    (h' : Lexes ds ms) : Lexes (cs ++ ds) (ls ++ ms) := by
  induction h with
  | nil => exact h'
  | blank skipped _ ih => exact .blank skipped ih
  | symbol known _ ih => exact .symbol known ih
  | @name text rest ls spelled stop _ ih =>
    rw [List.append_assoc]
    refine .name spelled (fun c first => ?_) ih
    cases rest with
    | nil => exact (closed c first).1
    | cons d rest => exact stop c first
  | @numeral span ls leads _ ih =>
    have follow : MayFollow span.rest (span.rest ++ ds) := by
      cases span.rest with
      | nil => exact .inr closed.endsNumeral
      | cons d rest => exact .inl rfl
    rw [List.append_assoc]
    exact .numeral (leads.follow follow) ih

end ShaderDag
