import ShaderDag.Proofs.Numeral

/-!
# How tokens tile a text

A text is made up of words, with blanks between them.  The words have three classes, and each is the longest
of its class where it starts.  A scan from left to right is stuck at a character that starts no word, and at
an exponent mark that hangs behind a number.

* `Word`, `Longest` — the words of a class and what they are read as, and the longest of them;
* `Tiles` — tokens that tile a text, with their offsets in bytes; `Stuck` — what ends the tiling early;
* `Tiles.run`, `Stuck.run` — the lexer goes along every tiling, and stops where it is stuck;
* `exists_tiles` — every text is tiled up to its end or up to a problem.
-/

namespace ShaderDag

/-! ### Words -/

/-- The classes of words. -/
inductive WordClass where
  | numeral
  | name
  | symbol

/-- `Word k text lexeme`: the characters `text` are a word of class `k`, which is read as `lexeme`. -/
inductive Word : WordClass → List Char → Lexeme → Prop where
  | numeral {s : NumeralSpan} (formed : s.WellFormed) :
      Word .numeral s.characters (.numeral (.ofDecimal s.decimal))
  | name {text : String} (spelled : isIdentifier text = true) : Word .name text.toList (.name text)
  | symbol {c : Char} {lexeme : Lexeme} (known : symbolLexeme? c = some lexeme) : Word .symbol [c] lexeme

/-- The characters are a word of the class. -/
def WordClass.Matches (k : WordClass) (text : List Char) : Prop := ∃ lexeme, Word k text lexeme

/-- No longer word of the class starts where the text does. -/
def Longest (k : WordClass) (text rest : List Char) : Prop :=
  ∀ other, other <+: text ++ rest → k.Matches other → other.length ≤ text.length

/-- The text is the mantissa of a number, and a mark behind it starts no exponent. -/
def HangingMark (text rest : List Char) : Prop :=
  NumeralSpan.IsMantissa text ∧ ∃ mark ds, rest = mark :: ds ∧ IsMark mark ∧ ¬StartsExponent ds

/-- The bytes that characters take. -/
def byteLength : List Char → Nat
  | [] => 0
  | c :: cs => c.utf8Size + byteLength cs

/-- `Tiles o cs ts stop rest`: from byte `o` on, the characters `cs` are tiled by the tokens `ts` up to byte
`stop`, where `rest` is left.  Between tokens there are blanks only; each token is the longest word of its
class, and none is a mantissa in front of a hanging mark. -/
inductive Tiles : Nat → List Char → List Token → Nat → List Char → Prop where
  | done {o : Nat} {cs : List Char} : Tiles o cs [] o cs
  | blank {o stop : Nat} {c : Char} {cs rest : List Char} {ts : List Token} (skipped : isBlank c = true)
      (more : Tiles (o + c.utf8Size) cs ts stop rest) : Tiles o (c :: cs) ts stop rest
  | word {o stop : Nat} {k : WordClass} {text cs rest : List Char} {lexeme : Lexeme} {ts : List Token}
      (spelled : Word k text lexeme) (longest : Longest k text cs) (clear : ¬HangingMark text cs)
      (more : Tiles (o + byteLength text) cs ts stop rest) :
      Tiles o (text ++ cs) (⟨lexeme, o⟩ :: ts) stop rest

/-- What stops a scan from left to right: a character that starts no word, or a mark that hangs behind the
longest number. -/
inductive Stuck : Nat → List Char → SyntaxError → Prop where
  | stray {o : Nat} {c : Char} {cs : List Char} (blank : isBlank c = false)
      (starts : ∀ k text, text <+: c :: cs → ¬WordClass.Matches k text) :
      Stuck o (c :: cs) ⟨o, .strayCharacter c⟩
  | hanging {o : Nat} {text rest : List Char} (longest : Longest .numeral text rest)
      (mark : HangingMark text rest) : Stuck o (text ++ rest) ⟨o + byteLength text, .emptyExponent⟩

/-! ### Words take one byte for each character -/

theorem lt_of_isNamePart {c : Char} (h : isNamePart c = true) : c.toNat < 128 := by
  have bounds : (97 ≤ c.toNat ∧ c.toNat ≤ 122) ∨ (65 ≤ c.toNat ∧ c.toNat ≤ 90) ∨ c = '_' ∨
      (48 ≤ c.toNat ∧ c.toNat ≤ 57) := by
    rw [isNamePart, Bool.or_eq_true, isDigit_iff] at h
    rcases h with start | digit
    · simp only [isNameStart, Bool.or_eq_true, Bool.and_eq_true, decide_eq_true_eq, beq_iff_eq, Char.le_def,
        UInt32.le_iff_toNat_le] at start
      rcases start with (small | large) | line
      · exact .inl small
      · exact .inr (.inl large)
      · exact .inr (.inr (.inl line))
    · exact .inr (.inr (.inr digit))
  rcases bounds with small | large | rfl | digit
  · omega
  · omega
  · decide
  · omega

theorem forall_isNamePart {text : String} (spelled : isIdentifier text = true) :
    ∀ c ∈ text.toList, isNamePart c = true := by
  cases written : text.toList with
  | nil => exact fun c mem => absurd mem List.not_mem_nil
  | cons d ds =>
    simp only [isIdentifier, written, Bool.and_eq_true, List.all_eq_true] at spelled
    refine List.forall_mem_cons.2 ⟨?_, spelled.2⟩
    rw [isNamePart, spelled.1, Bool.true_or]

theorem lt_of_isDigit {c : Char} (h : isDigit c = true) : c.toNat < 128 := by
  rw [isDigit_iff] at h
  omega

theorem lt_of_isBlank {c : Char} (h : isBlank c = true) : c.toNat < 128 := by
  rcases isBlank_cases h with rfl | rfl | rfl | rfl | rfl <;> decide

theorem lt_of_symbol {c : Char} {lexeme : Lexeme} (h : symbolLexeme? c = some lexeme) : c.toNat < 128 := by
  unfold symbolLexeme? at h
  split at h
  case h_7 => cases h
  all_goals decide

theorem IsMark.lt {c : Char} (h : IsMark c) : c.toNat < 128 := by
  rcases h with rfl | rfl
  · decide
  · decide

theorem NumeralSpan.WellFormed.lt {s : NumeralSpan} (formed : s.WellFormed) :
    ∀ c ∈ s.characters, c.toNat < 128 := by
  intro c mem
  rw [NumeralSpan.characters, List.mem_append, List.mem_append] at mem
  rcases mem with (whole | places) | power
  · exact lt_of_isDigit (formed.whole c whole)
  · cases fraction : s.fraction with
    | none =>
      rw [fraction] at places
      exact absurd places List.not_mem_nil
    | some ds =>
      rw [fraction] at places
      rcases List.mem_cons.1 places with rfl | digit
      · decide
      · exact lt_of_isDigit (formed.fraction ds fraction c digit)
  · cases exponent : s.exponent with
    | none =>
      rw [exponent] at power
      exact absurd power List.not_mem_nil
    | some e =>
      obtain ⟨mark, sign, ds⟩ := e
      obtain ⟨marked, valid, -, all⟩ := formed.exponent mark sign ds exponent
      rw [exponent] at power
      rcases List.mem_cons.1 power with rfl | later
      · exact marked.lt
      · rcases List.mem_append.1 later with signed | digit
        · rcases valid with rfl | rfl | rfl
          · exact absurd signed List.not_mem_nil
          · rw [List.mem_singleton.1 signed]
            decide
          · rw [List.mem_singleton.1 signed]
            decide
        · exact lt_of_isDigit (all c digit)

theorem utf8Size_of_lt {c : Char} (h : c.toNat < 128) : c.utf8Size = 1 := by
  rw [Char.utf8Size_eq_one_iff, UInt32.le_iff_toNat_le]
  exact Nat.le_of_lt_succ h

@[simp]
theorem byteLength_nil : byteLength [] = 0 := rfl

@[simp]
theorem byteLength_cons (c : Char) (cs : List Char) : byteLength (c :: cs) = c.utf8Size + byteLength cs := rfl

@[simp]
theorem byteLength_append (cs ds : List Char) : byteLength (cs ++ ds) = byteLength cs + byteLength ds := by
  induction cs with
  | nil => exact (Nat.zero_add _).symm
  | cons c cs ih => rw [List.cons_append, byteLength_cons, byteLength_cons, ih, Nat.add_assoc]

theorem byteLength_of_lt {cs : List Char} (h : ∀ c ∈ cs, c.toNat < 128) : byteLength cs = cs.length := by
  induction cs with
  | nil => rfl
  | cons c cs ih =>
    rw [List.forall_mem_cons] at h
    rw [byteLength_cons, utf8Size_of_lt h.1, ih h.2, List.length_cons, Nat.add_comm]

namespace Word

variable {k : WordClass} {text : List Char} {lexeme : Lexeme}

theorem lt (spelled : Word k text lexeme) : ∀ c ∈ text, c.toNat < 128 := by
  cases spelled with
  | numeral formed => exact formed.lt
  | name spelled => exact fun c mem => lt_of_isNamePart (forall_isNamePart spelled c mem)
  | symbol known => exact List.forall_mem_singleton.2 (lt_of_symbol known)

theorem byteLength_eq (spelled : Word k text lexeme) : byteLength text = text.length :=
  byteLength_of_lt spelled.lt

theorem ne_nil (spelled : Word k text lexeme) : text ≠ [] := by
  cases spelled with
  | @numeral s formed =>
    intro empty
    have long : s.characters.length = 0 := by rw [empty]; rfl
    rw [NumeralSpan.characters, List.length_append, List.length_append] at long
    rcases formed.mantissa with whole | ⟨d, places, fraction⟩
    · have positive := List.length_pos_iff.2 whole
      omega
    · rw [fraction, List.length_cons] at long
      omega
  | @name text spelled =>
    intro empty
    rw [isIdentifier, empty] at spelled
    exact absurd spelled (by decide)
  | symbol => exact List.cons_ne_nil _ _

end Word

/-! ### The longest words -/

section Longest

variable {text rest : List Char} {span : NumeralSpan} {ds : List Char} {mark : Char} {n : Nat}

/-- What goes on in a class of characters as long as a text does is no longer than the text. -/
theorem length_le_of_stop {p : Char → Bool} {other : List Char}
    (stop : ∀ c, rest.head? = some c → p c = false) (start : other <+: text ++ rest)
    (all : ∀ c ∈ other, p c = true) : other.length ≤ text.length := by
  rcases List.prefix_or_prefix_of_prefix start (List.prefix_append text rest) with inside | longer
  · exact inside.length_le
  · obtain ⟨more, rfl⟩ := longer
    rw [List.prefix_append_right_inj] at start
    cases more with
    | nil => simp
    | cons d more =>
      obtain ⟨ds, rfl⟩ := start
      have part := all d (by simp)
      rw [stop d rfl] at part
      cases part

/-- A name is the longest one if no letter, digit or underscore follows. -/
theorem longest_name_iff {text : String} (spelled : isIdentifier text = true) :
    Longest .name text.toList rest ↔ ∀ c, rest.head? = some c → isNamePart c = false := by
  constructor
  · intro longest c first
    obtain ⟨rest', rfl⟩ := List.head?_eq_some_iff.1 first
    by_contra part
    rw [Bool.not_eq_false] at part
    -- the name and the next character would be a longer name
    have longer : isIdentifier (String.ofList (text.toList ++ [c])) = true := by
      cases written : text.toList with
      | nil => simp [isIdentifier, written] at spelled
      | cons d ds =>
        simp only [isIdentifier, written, Bool.and_eq_true] at spelled
        simp [isIdentifier, spelled.1, part]
        simpa using spelled.2
    have word : WordClass.Matches .name (text.toList ++ [c]) := by
      have named := Word.name longer
      rw [String.toList_ofList] at named
      exact ⟨_, named⟩
    have bound := longest _ (by simp) word
    rw [List.length_append, List.length_singleton] at bound
    omega
  · intro stop other start word
    obtain ⟨lexeme, named⟩ := word
    cases named with
    | name spelled' => exact length_le_of_stop stop start (forall_isNamePart spelled')

theorem longest_symbol {c : Char} (rest : List Char) : Longest .symbol [c] rest := by
  intro other _ word
  obtain ⟨lexeme, known⟩ := word
  cases known
  exact Nat.le_refl _

namespace NumeralSpan

/-- What a scan reaches bounds every number at the start of the text. -/
theorem longest_of_reach (reached : reach (scan (text ++ rest)) = text.length) :
    Longest .numeral text rest := by
  intro other start word
  obtain ⟨more, split⟩ := start
  obtain ⟨lexeme, number⟩ := word
  cases number with
  | numeral formed =>
    have bound := length_le_reach formed more
    rw [split, reached] at bound
    exact bound

theorem Leads.wellFormed (h : span.Leads) : span.WellFormed := by
  obtain ⟨c, more, written, start⟩ := h.starts
  have scanned := h.scanned
  rw [written, List.cons_append] at scanned
  exact wellFormed_of_scan (startsNumeral_append start span.rest) scanned

/-- What a scan reads is the longest number, and no mark hangs behind it. -/
theorem Leads.longest (h : span.Leads) :
    Longest .numeral span.characters span.rest ∧ ¬HangingMark span.characters span.rest := by
  refine ⟨longest_of_reach (by rw [h.scanned]; rfl), fun hanging => ?_⟩
  obtain ⟨mantissa, mark, ds, behind, marked, bare⟩ := hanging
  have stopped := scan_of_hanging mantissa marked bare
  rw [← behind, h.scanned] at stopped
  cases stopped

/-- A number starts at its first character. -/
theorem WellFormed.starts (formed : span.WellFormed) :
    ∃ c more, span.characters = c :: more ∧ startsNumeral c more = true := by
  cases whole : span.whole with
  | cons d ds =>
    have digit : isDigit d = true := formed.whole d (by simp [whole])
    refine ⟨d, ?_, ?_, ?_⟩
    · exact ds ++ (span.characters.drop span.whole.length)
    · simp [characters, whole]
    · simp [startsNumeral, digit]
  | nil =>
    obtain ⟨d, places, fraction⟩ := formed.mantissa.resolve_left (by simp [whole])
    have digit : isDigit d = true := formed.fraction _ fraction d List.mem_cons_self
    refine ⟨'.', d :: (span.characters.drop 2), ?_, ?_⟩
    · simp [characters, whole, fraction]
    · simp [startsNumeral, digit]

/-- What starts like no number is no mantissa. -/
theorem not_hanging {c : Char} {cs rest : List Char} (other : ∀ more, startsNumeral c more = false) :
    ¬HangingMark (c :: cs) rest := by
  intro hanging
  obtain ⟨⟨s, formed, -, same⟩, -⟩ := hanging
  obtain ⟨d, more, written, number⟩ := formed.starts
  rw [written] at same
  cases same
  rw [other] at number
  cases number

/-- A scan reads the longest number if no mark hangs behind it. -/
theorem leads_of_longest (formed : span.WellFormed) (longest : Longest .numeral span.characters rest)
    (clear : ¬HangingMark span.characters rest) : Leads { span with rest := rest } := by
  obtain ⟨c, more, written, start⟩ := formed.starts
  have start' := startsNumeral_append start rest
  refine ⟨?_, c, more, written, start⟩
  show scan (span.characters ++ rest) = _
  have reached := length_le_reach formed rest
  cases read : scan (span.characters ++ rest) with
  | error before =>
    -- the scan stops at a mark, which then hangs behind the longest number
    rw [written, List.cons_append] at read
    obtain ⟨text, mark, ds, mantissa, count, split, marked, bare⟩ := scan_error start' read
    rw [← List.cons_append, ← written] at split read
    rw [read] at reached
    obtain ⟨s, formed', none, rfl⟩ := mantissa
    have bound := longest s.characters (by rw [split]; exact List.prefix_append _ _) ⟨_, .numeral formed'⟩
    have same : span.characters = s.characters ∧ rest = mark :: ds := by
      refine List.append_inj split ?_
      have low : span.characters.length ≤ before := reached
      omega
    exact absurd ⟨⟨s, formed', none, same.1.symm⟩, mark, ds, same.2, marked, bare⟩ clear
  | ok s =>
    rw [written, List.cons_append] at read
    have formed' := wellFormed_of_scan start' read
    obtain ⟨split, -⟩ := scan_follow read
    rw [← List.cons_append, ← written] at split read
    rw [read] at reached
    have bound := longest s.characters (by rw [split]; exact List.prefix_append _ _) ⟨_, .numeral formed'⟩
    have same : span.characters = s.characters ∧ rest = s.rest := by
      refine List.append_inj split ?_
      have low : span.characters.length ≤ s.characters.length := reached
      omega
    -- the parts of a number can be read off its characters
    have own := scan_characters formed
    have other := scan_characters formed'
    rw [same.1, other] at own
    have parts : ({ s with rest := [] } : NumeralSpan) = { span with rest := [] } := Except.ok.inj own
    rw [same.2]
    cases s
    cases span
    cases parts
    rfl

end NumeralSpan

end Longest

/-! ### The lexer tiles -/

namespace Tiles

variable {o stop : Nat} {cs rest : List Char} {ts us : List Token} {t : Token}

/-- What is tiled and what is left make up the text. -/
theorem split (h : Tiles o cs ts stop rest) :
    ∃ front, cs = front ++ rest ∧ stop = o + byteLength front := by
  induction h with
  | done => exact ⟨[], rfl, rfl⟩
  | @blank o stop c cs rest ts _ _ ih =>
    obtain ⟨front, rfl, rfl⟩ := ih
    exact ⟨c :: front, rfl, by rw [byteLength_cons, Nat.add_assoc]⟩
  | @word o stop k text cs rest lexeme ts _ _ _ _ ih =>
    obtain ⟨front, rfl, rfl⟩ := ih
    exact ⟨text ++ front, by rw [List.append_assoc], by rw [byteLength_append, Nat.add_assoc]⟩

theorem le_stop (h : Tiles o cs ts stop rest) : o ≤ stop := by
  obtain ⟨front, -, same⟩ := h.split
  omega

/-- The tokens lie between the start and the stop, one behind the other. -/
theorem increasing (h : Tiles o cs ts stop rest) :
    ts.Pairwise (·.offset < ·.offset) ∧ ∀ t ∈ ts, o ≤ t.offset ∧ t.offset < stop := by
  induction h with
  | done => exact ⟨.nil, nofun⟩
  | @blank o stop c cs rest ts _ _ ih =>
    refine ⟨ih.1, fun t mem => ?_⟩
    have inside := ih.2 t mem
    omega
  | @word o stop k text cs rest lexeme ts spelled _ _ more ih =>
    have positive := List.length_pos_iff.2 spelled.ne_nil
    have size := spelled.byteLength_eq
    have last := more.le_stop
    refine ⟨List.pairwise_cons.2 ⟨fun t mem => ?_, ih.1⟩, List.forall_mem_cons.2 ⟨?_, fun t mem => ?_⟩⟩
    · have inside := ih.2 t mem
      dsimp only
      omega
    · dsimp only
      omega
    · have inside := ih.2 t mem
      omega

/-- Each token is a word at its offset. -/
theorem exists_word (h : Tiles o cs ts stop rest) (mem : t ∈ ts) :
    ∃ k before text behind, cs = before ++ (text ++ behind) ∧ t.offset = o + byteLength before ∧
      Word k text t.lexeme ∧ Longest k text behind := by
  induction h with
  | done => exact absurd mem List.not_mem_nil
  | @blank o stop c cs rest ts _ _ ih =>
    obtain ⟨k, before, text, behind, rfl, offset, word, longest⟩ := ih mem
    exact ⟨k, c :: before, text, behind, rfl, by rw [offset, byteLength_cons, Nat.add_assoc], word, longest⟩
  | @word o stop k text cs rest lexeme ts spelled longest _ _ ih =>
    rcases List.mem_cons.1 mem with rfl | mem
    · exact ⟨k, [], text, cs, rfl, rfl, spelled, longest⟩
    · obtain ⟨k', before, text', behind, rfl, offset, word, longest'⟩ := ih mem
      refine ⟨k', text ++ before, text', behind, by rw [List.append_assoc], ?_, word, longest'⟩
      rw [offset, byteLength_append, Nat.add_assoc]

end Tiles

/-- Tokens in front of those that are still to come. -/
theorem bind_cons_append {result : Except SyntaxError (List Token)} (t : Token) (ts : List Token) :
    (do let more ← (do let more ← result; return ts ++ more); return t :: more) =
      (do let more ← result; return t :: ts ++ more : Except SyntaxError (List Token)) := by
  cases result with
  | ok more => rfl
  | error e => rfl

/-- **The lexer goes along every tiling.** -/
theorem Tiles.run {o stop : Nat} {cs rest : List Char} {ts : List Token} (h : Tiles o cs ts stop rest) :
    tokenizeFrom o cs = do let more ← tokenizeFrom stop rest; return ts ++ more := by
  induction h with
  | @done o cs =>
    cases tokenizeFrom o cs with
    | ok more => rfl
    | error e => rfl
  | blank skipped _ ih =>
    rw [utf8Size_of_lt (lt_of_isBlank skipped)] at ih
    rw [tokenizeFrom_blank skipped, ih]
  | @word o stop k text cs rest lexeme ts spelled longest clear _ ih =>
    rw [spelled.byteLength_eq] at ih
    have step : tokenizeFrom o (text ++ cs) =
        do let more ← tokenizeFrom (o + text.length) cs; return ⟨lexeme, o⟩ :: more := by
      cases spelled with
      | numeral formed => exact tokenizeFrom_numeral (NumeralSpan.leads_of_longest formed longest clear) o
      | name spelled => exact tokenizeFrom_name spelled ((longest_name_iff spelled).1 longest) o
      | symbol known => exact tokenizeFrom_symbol known o cs
    rw [step, ih, bind_cons_append]

/-- Where no word starts, there is no blank and the start of none of the classes. -/
theorem starts_nothing {c : Char} {cs : List Char}
    (starts : ∀ k text, text <+: c :: cs → ¬WordClass.Matches k text) :
    startsNumeral c cs = false ∧ isNameStart c = false ∧ symbolLexeme? c = none := by
  have first : [c] <+: c :: cs := ⟨cs, rfl⟩
  refine ⟨?_, ?_, ?_⟩
  · by_contra number
    rw [Bool.not_eq_false] at number
    obtain ⟨whole, fraction, after, formed, split, -⟩ := NumeralSpan.exists_mantissa number
    exact starts .numeral _ ⟨after, split.symm⟩ ⟨_, .numeral formed⟩
  · by_contra name
    rw [Bool.not_eq_false] at name
    have spelled : isIdentifier (String.ofList [c]) = true := by simp [isIdentifier, name]
    have word := Word.name spelled
    rw [String.toList_ofList] at word
    exact starts .name _ first ⟨_, word⟩
  · by_contra known
    obtain ⟨lexeme, known⟩ := Option.ne_none_iff_exists'.1 known
    exact starts .symbol _ first ⟨lexeme, .symbol known⟩

/-- A word starts where its class does. -/
theorem starts_of_word {c : Char} {cs text : List Char} {k : WordClass} {lexeme : Lexeme}
    (word : Word k text lexeme) (start : text <+: c :: cs) :
    startsNumeral c cs = true ∨ isNameStart c = true ∨ symbolLexeme? c ≠ none := by
  obtain ⟨rest, split⟩ := start
  cases word with
  | numeral formed =>
    obtain ⟨d, more, written, number⟩ := formed.starts
    rw [written] at split
    cases split
    exact .inl (NumeralSpan.startsNumeral_append number rest)
  | @name text spelled =>
    cases written : text.toList with
    | nil => simp [isIdentifier, written] at spelled
    | cons d ds =>
      simp only [isIdentifier, written, Bool.and_eq_true] at spelled
      rw [written] at split
      cases split
      exact .inr (.inl spelled.1)
  | symbol known =>
    cases split
    rw [known]
    exact .inr (.inr (Option.some_ne_none lexeme))

/-- The lexer stops where a scan from left to right is stuck. -/
theorem Stuck.run {o : Nat} {rest : List Char} {e : SyntaxError} (h : Stuck o rest e) :
    tokenizeFrom o rest = .error e := by
  cases h with
  | @stray c cs blank starts =>
    obtain ⟨number, name, symbol⟩ := starts_nothing starts
    rw [tokenizeFrom]
    simp only [blank, number, name, symbol]
    rfl
  | @hanging text rest longest hangs =>
    obtain ⟨mantissa, mark, ds, rfl, marked, bare⟩ := hangs
    have stopped := NumeralSpan.scan_of_hanging mantissa marked bare
    obtain ⟨s, formed, -, rfl⟩ := mantissa
    obtain ⟨c, more, written, start⟩ := formed.starts
    have start' := NumeralSpan.startsNumeral_append start (mark :: ds)
    have size : byteLength s.characters = s.characters.length := byteLength_of_lt formed.lt
    rw [size]
    rw [written, List.cons_append] at stopped ⊢
    rw [tokenizeFrom, if_neg (by simp [isBlank_of_startsNumeral start]), dif_pos start']
    split
    · next before failed =>
      rw [failed] at stopped
      cases stopped
      rfl
    · next span found =>
      rw [found] at stopped
      cases stopped

/-- **Every text is tiled up to its end or up to a problem**, by induction along the run of the lexer. -/
theorem exists_tiles (o : Nat) (cs : List Char) :
    ∃ ts stop rest, Tiles o cs ts stop rest ∧ (rest = [] ∨ ∃ e, Stuck stop rest e) := by
  fun_induction tokenizeFrom o cs with
  | case1 o => exact ⟨[], o, [], .done, .inl rfl⟩
  | case2 o c cs blank ih =>
    obtain ⟨ts, stop, rest, tiles, last⟩ := ih
    refine ⟨ts, stop, rest, .blank blank ?_, last⟩
    rw [utf8Size_of_lt (lt_of_isBlank blank)]
    exact tiles
  | case3 o c cs _ start before stopped =>
    obtain ⟨text, mark, ds, mantissa, rfl, split, marked, bare⟩ := NumeralSpan.scan_error start stopped
    have longest : Longest .numeral text (mark :: ds) := by
      refine NumeralSpan.longest_of_reach ?_
      rw [← split, stopped]
      rfl
    rw [split]
    exact ⟨[], o, _, .done, .inr ⟨_, .hanging longest ⟨mantissa, mark, ds, rfl, marked, bare⟩⟩⟩
  | case4 o c cs _ start span scanned _ ih =>
    obtain ⟨ts, stop, rest, tiles, last⟩ := ih
    obtain ⟨split, -⟩ := NumeralSpan.scan_follow scanned
    obtain ⟨word, written, start'⟩ := NumeralSpan.exists_characters start scanned
    rw [split] at scanned ⊢
    have leads : span.Leads := ⟨scanned, c, word, written, start'⟩
    have number := Word.numeral leads.wellFormed
    rw [← number.byteLength_eq] at tiles
    exact ⟨_, stop, rest, .word number leads.longest.1 leads.longest.2 tiles, last⟩
  | case5 o c cs _ _ start _ name ih =>
    obtain ⟨ts, stop, rest, tiles, last⟩ := ih
    have spelled : isIdentifier (String.ofList name) = true := by simp [isIdentifier, name, start]
    have word := Word.name spelled
    have longest := (longest_name_iff spelled).2 (head?_dropWhile_not cs)
    rw [String.toList_ofList] at word longest
    have split : c :: cs = name ++ cs.dropWhile isNamePart := by simp [name]
    rw [← word.byteLength_eq] at tiles
    rw [split]
    have clear : ¬HangingMark name (cs.dropWhile isNamePart) :=
      NumeralSpan.not_hanging (nameStart_apart start).2
    exact ⟨_, stop, rest, .word word longest clear tiles, last⟩
  | case6 o c cs _ _ _ lexeme known ih =>
    obtain ⟨ts, stop, rest, tiles, last⟩ := ih
    have word := Word.symbol known
    have size : byteLength [c] = 1 := word.byteLength_eq
    rw [← size] at tiles
    have clear : ¬HangingMark [c] cs := NumeralSpan.not_hanging (symbol_apart known).2.1
    exact ⟨_, stop, rest, .word word (longest_symbol cs) clear tiles, last⟩
  | case7 o c cs blank number name unknown =>
    refine ⟨[], o, c :: cs, .done, .inr ⟨_, .stray (by simpa using blank) fun k text start word => ?_⟩⟩
    obtain ⟨lexeme, word⟩ := word
    rcases starts_of_word word start with h | h | h
    · exact number h
    · exact name h
    · exact h unknown

end ShaderDag
