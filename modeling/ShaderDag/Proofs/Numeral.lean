import ShaderDag.Proofs.Lexing

/-!
# The shape of a number

A number is digits, a point and digits, and an exponent, of which the last two may be missing.  A scan takes
the longest one, and it stops at a mark that no exponent follows.

* `NumeralSpan.WellFormed` — the parts of a number, apart from any scan;
* `NumeralSpan.scan_characters` — a number is read as it is written, so its parts can be read off it;
* `NumeralSpan.length_le_reach` — no number at the start of a text is longer than what a scan reads;
* `NumeralSpan.wellFormed_of_scan` — what a scan reads is a number;
* `NumeralSpan.scan_error`, `NumeralSpan.scan_of_hanging` — it stops exactly at a mark without an exponent.
-/

namespace ShaderDag

/-! ### Exponents -/

/-- The marks of an exponent. -/
def IsMark (c : Char) : Prop := c = 'e' ∨ c = 'E'

/-- The sign of an exponent, if there is one. -/
def IsSign (sign : Option Char) : Prop := sign = none ∨ sign = some '+' ∨ sign = some '-'

/-- Text that goes on with the digits of an exponent, behind a sign or not. -/
def StartsExponent (cs : List Char) : Prop :=
  ∃ sign d more, IsSign sign ∧ isDigit d = true ∧ cs = sign.toList ++ d :: more

theorem isMark_iff {c : Char} : (c == 'e' || c == 'E') = true ↔ IsMark c := by
  rw [Bool.or_eq_true, beq_iff_eq, beq_iff_eq, IsMark]

theorem IsMark.isDigit {c : Char} (h : IsMark c) : isDigit c = false := by
  rcases h with rfl | rfl
  · decide
  · decide

theorem IsMark.ne_point {c : Char} (h : IsMark c) : c ≠ '.' := by
  rcases h with rfl | rfl
  · decide
  · decide

namespace NumeralSpan

variable {whole digits after cs rest : List Char} {fraction : Option (List Char)} {mark : Char}
  {sign : Option Char} {s t : NumeralSpan} {n : Nat}

/-- The shape of a number: digits, a point and digits, and an exponent, of which the last two may be missing.
There is a digit before the exponent, and if there is an exponent, it has one too. -/
structure WellFormed (s : NumeralSpan) : Prop where
  whole : ∀ c ∈ s.whole, isDigit c = true
  fraction : ∀ places, s.fraction = some places → ∀ c ∈ places, isDigit c = true
  mantissa : s.whole ≠ [] ∨ ∃ d places, s.fraction = some (d :: places)
  exponent : ∀ mark sign digits, s.exponent = some (mark, sign, digits) →
    IsMark mark ∧ IsSign sign ∧ digits ≠ [] ∧ ∀ c ∈ digits, isDigit c = true

/-! ### What a scan makes of a number -/

theorem signSpan_of_sign (valid : IsSign sign) {d : Char} (digit : isDigit d = true) (more : List Char) :
    signSpan (sign.toList ++ d :: more) = (sign, d :: more) := by
  rcases valid with rfl | rfl | rfl
  · rw [Option.toList_none, List.nil_append, signSpan]
    · rintro cs ⟨⟩
      exact absurd digit (by decide)
    · rintro cs ⟨⟩
      exact absurd digit (by decide)
  · rfl
  · rfl

theorem isSign_signSpan (cs : List Char) : IsSign (signSpan cs).1 := by
  unfold signSpan IsSign
  split <;> simp

/-- There is an exponent behind a mark exactly if the sign is followed by digits. -/
theorem startsExponent_iff {cs : List Char} :
    StartsExponent cs ↔ (signSpan cs).2.takeWhile isDigit ≠ [] := by
  constructor
  · intro h
    obtain ⟨sign, d, more, valid, digit, rfl⟩ := h
    rw [signSpan_of_sign valid digit, List.takeWhile_cons, digit]
    exact List.cons_ne_nil _ _
  · intro nonempty
    have split := signSpan_eq cs
    cases found : (signSpan cs).2 with
    | nil =>
      rw [found] at nonempty
      exact absurd rfl nonempty
    | cons d more =>
      have digit : isDigit d = true := by
        by_contra other
        rw [found, List.takeWhile_cons, if_neg other] at nonempty
        exact nonempty rfl
      exact ⟨(signSpan cs).1, d, more, isSign_signSpan cs, digit, found ▸ split⟩

/-- An exponent takes its mark, its sign and all digits. -/
theorem scanExponent_exponent (marked : IsMark mark) (valid : IsSign sign) (nonempty : digits ≠ [])
    (all : ∀ c ∈ digits, isDigit c = true) (rest : List Char) :
    scanExponent whole fraction (mark :: (sign.toList ++ (digits ++ rest))) =
      .ok ⟨whole, fraction, some (mark, sign, digits ++ rest.takeWhile isDigit), rest.dropWhile isDigit⟩ := by
  obtain ⟨d, ds, rfl⟩ := List.exists_cons_of_ne_nil nonempty
  have signed := signSpan_of_sign valid (all d List.mem_cons_self) (ds ++ rest)
  rw [scanExponent, if_pos (isMark_iff.2 marked), List.cons_append]
  simp only [signed]
  rw [← List.cons_append, List.takeWhile_append_of_pos all, List.dropWhile_append_of_pos all]
  rfl

/-- An exponent without digits: the mark stands directly behind the mantissa. -/
theorem scanExponent_error (h : scanExponent whole fraction after = .error n) :
    n = (NumeralSpan.mk whole fraction none []).characters.length ∧
      ∃ mark ds, after = mark :: ds ∧ IsMark mark ∧ ¬StartsExponent ds := by
  unfold scanExponent at h
  split at h
  · next mark ds =>
    split at h
    · next marked =>
      dsimp only at h
      split at h
      · next none =>
        cases h
        refine ⟨rfl, mark, ds, rfl, isMark_iff.1 marked, fun starts => ?_⟩
        exact startsExponent_iff.1 starts (by simpa using none)
      · cases h
    · cases h
  · cases h

/-- How far a scan comes: to the end of the number, or to the mark of an exponent without digits. -/
def reach : Except Nat NumeralSpan → Nat
  | .ok s => s.characters.length
  | .error before => before

theorem le_reach_scanExponent (whole : List Char) (fraction : Option (List Char)) (after : List Char) :
    (NumeralSpan.mk whole fraction none []).characters.length ≤
      reach (scanExponent whole fraction after) := by
  cases result : scanExponent whole fraction after with
  | ok s =>
    obtain ⟨tail, -, written, -⟩ := scanExponent_follow result
    rw [reach, written, List.length_append]
    omega
  | error before =>
    obtain ⟨count, -⟩ := scanExponent_error result
    exact Nat.le_of_eq count.symm

theorem whole_le_characters (s : NumeralSpan) : s.whole.length ≤ s.characters.length := by
  rw [characters, List.length_append, List.length_append]
  omega

theorem takeWhile_le_reach (cs : List Char) : (cs.takeWhile isDigit).length ≤ reach (scan cs) := by
  have mantissa : ∀ fraction after, (cs.takeWhile isDigit).length ≤
      reach (scanExponent (cs.takeWhile isDigit) fraction after) := by
    intro fraction after
    have low := le_reach_scanExponent (cs.takeWhile isDigit) fraction after
    have front := whole_le_characters (NumeralSpan.mk (cs.takeWhile isDigit) fraction none [])
    dsimp only at front
    omega
  by_cases point : ∃ ds, cs.dropWhile isDigit = '.' :: ds
  · obtain ⟨ds, point⟩ := point
    rw [scan_point point]
    exact mantissa _ _
  · rw [scan_noPoint]
    · exact mantissa _ _
    · rintro c first rfl
      obtain ⟨ds, same⟩ := List.head?_eq_some_iff.1 first
      exact point ⟨ds, same⟩

/-- A scan reads the mantissa of a number, and goes on behind it. -/
theorem scan_mantissa (formed : t.WellFormed) (stop : ∀ c, rest.head? = some c → isDigit c = false)
    (pointless : t.fraction = none → ∀ c, rest.head? = some c → c ≠ '.') :
    scan ((NumeralSpan.mk t.whole t.fraction none []).characters ++ rest) =
      scanExponent t.whole t.fraction rest := by
  cases fraction : t.fraction with
  | none =>
    have written : (NumeralSpan.mk t.whole none none []).characters = t.whole := by simp [characters]
    obtain ⟨taken, dropped⟩ := span_append formed.whole stop
    rw [written, scan_noPoint (by rw [dropped]; exact pointless fraction), taken, dropped]
  | some places =>
    have written : (NumeralSpan.mk t.whole (some places) none []).characters ++ rest =
        t.whole ++ '.' :: (places ++ rest) := by simp [characters]
    have point : ∀ c, ('.' :: (places ++ rest)).head? = some c → isDigit c = false := by
      intro c first
      cases first
      decide
    obtain ⟨taken, dropped⟩ := span_append formed.whole point
    obtain ⟨taken', dropped'⟩ := span_append (formed.fraction places fraction) stop
    rw [written, scan_point dropped, taken, taken', dropped']

/-- A number with an exponent is read as it is written, and more digits behind it are read too. -/
theorem scan_exponent (formed : t.WellFormed) (exponent : t.exponent = some (mark, sign, digits))
    (rest : List Char) : scan (t.characters ++ rest) =
      .ok ⟨t.whole, t.fraction, some (mark, sign, digits ++ rest.takeWhile isDigit),
        rest.dropWhile isDigit⟩ := by
  obtain ⟨marked, valid, nonempty, all⟩ := formed.exponent mark sign digits exponent
  have written : t.characters ++ rest = (NumeralSpan.mk t.whole t.fraction none []).characters ++
      mark :: (sign.toList ++ (digits ++ rest)) := by
    simp [characters, exponent]
  have stop : ∀ c, (mark :: (sign.toList ++ (digits ++ rest))).head? = some c → isDigit c = false := by
    intro c first
    cases first
    exact marked.isDigit
  have point : ∀ c, (mark :: (sign.toList ++ (digits ++ rest))).head? = some c → c ≠ '.' := by
    intro c first
    cases first
    exact marked.ne_point
  rw [written, scan_mantissa formed stop (fun _ => point), scanExponent_exponent marked valid nonempty all]

/-- **A number is read as it is written.** -/
theorem scan_characters (formed : t.WellFormed) : scan t.characters = .ok { t with rest := [] } := by
  cases exponent : t.exponent with
  | some e =>
    obtain ⟨mark, sign, digits⟩ := e
    have read := scan_exponent formed exponent []
    rw [List.append_nil] at read
    rw [read]
    simp
  | none =>
    have written : t.characters = (NumeralSpan.mk t.whole t.fraction none []).characters ++ [] := by
      simp [characters, exponent]
    have last : ∀ c, ([] : List Char).head? ≠ some c := fun c => (Option.some_ne_none c).symm
    have stop : ∀ c, ([] : List Char).head? = some c → isDigit c = false := fun c same => absurd same (last c)
    have point : ∀ c, ([] : List Char).head? = some c → c ≠ '.' := fun c same => absurd same (last c)
    rw [written, scan_mantissa formed stop (fun _ => point), scanExponent]

/-- **No number at the start of a text is longer than what a scan reads.** -/
theorem length_le_reach (formed : t.WellFormed) (rest : List Char) :
    t.characters.length ≤ reach (scan (t.characters ++ rest)) := by
  cases exponent : t.exponent with
  | some e =>
    obtain ⟨mark, sign, digits⟩ := e
    rw [scan_exponent formed exponent]
    simp only [reach, characters, exponent, List.length_append, List.length_cons]
    omega
  | none =>
    cases fraction : t.fraction with
    | none =>
      have written : t.characters = t.whole := by simp [characters, exponent, fraction]
      have low := takeWhile_le_reach (t.characters ++ rest)
      rw [written, List.takeWhile_append_of_pos formed.whole, List.length_append] at low
      rw [written]
      omega
    | some places =>
      have written : t.characters ++ rest = t.whole ++ '.' :: (places ++ rest) := by
        simp [characters, exponent, fraction]
      have point : ∀ c, ('.' :: (places ++ rest)).head? = some c → isDigit c = false := by
        intro c first
        cases first
        decide
      obtain ⟨taken, dropped⟩ := span_append formed.whole point
      have low := le_reach_scanExponent t.whole (some (places ++ rest.takeWhile isDigit))
        (rest.dropWhile isDigit)
      rw [written, scan_point dropped, taken, List.takeWhile_append_of_pos (formed.fraction places fraction),
        List.dropWhile_append_of_pos (formed.fraction places fraction)]
      simp only [characters, exponent, fraction, List.length_append, List.length_cons] at low ⊢
      omega

/-! ### What a scan reads is a number -/

/-- The text in front of an exponent mark is a number without exponent. -/
def IsMantissa (text : List Char) : Prop :=
  ∃ s : NumeralSpan, s.WellFormed ∧ s.exponent = none ∧ s.characters = text

theorem wellFormed_whole (all : ∀ c ∈ whole, isDigit c = true) (nonempty : whole ≠ []) :
    (NumeralSpan.mk whole none none []).WellFormed := ⟨all, nofun, .inl nonempty, nofun⟩

theorem wellFormed_places (all : ∀ c ∈ whole, isDigit c = true) (all' : ∀ c ∈ digits, isDigit c = true)
    (nonempty : whole ≠ [] ∨ digits ≠ []) : (NumeralSpan.mk whole (some digits) none []).WellFormed := by
  refine ⟨all, fun places same => ?_, nonempty.imp_right fun some => ?_, nofun⟩
  · cases same
    exact all'
  · obtain ⟨d, places, rfl⟩ := List.exists_cons_of_ne_nil some
    exact ⟨d, places, rfl⟩

theorem scanExponent_wellFormed (formed : (NumeralSpan.mk whole fraction none []).WellFormed)
    (h : scanExponent whole fraction after = .ok s) : s.WellFormed := by
  have plain : ∀ rest, (NumeralSpan.mk whole fraction none rest).WellFormed :=
    fun _ => ⟨formed.whole, formed.fraction, formed.mantissa, nofun⟩
  unfold scanExponent at h
  split at h
  · next mark ds =>
    split at h
    · next marked =>
      dsimp only at h
      split at h
      · cases h
      · next nonempty =>
        cases h
        refine ⟨formed.whole, formed.fraction, formed.mantissa, fun mark' sign digits same => ?_⟩
        cases same
        exact ⟨isMark_iff.1 marked, isSign_signSpan ds, by simpa using nonempty, digits_of_takeWhile _⟩
    · cases h
      exact plain _
  · cases h
    exact plain _

/-- A scan reads a mantissa, and behind it an exponent or nothing. -/
theorem exists_mantissa {c : Char} (start : startsNumeral c cs = true) :
    ∃ whole fraction after, (NumeralSpan.mk whole fraction none []).WellFormed ∧
      c :: cs = (NumeralSpan.mk whole fraction none []).characters ++ after ∧
      scan (c :: cs) = scanExponent whole fraction after := by
  have split : (c :: cs).takeWhile isDigit ++ (c :: cs).dropWhile isDigit = c :: cs :=
    List.takeWhile_append_dropWhile
  have digits := digits_of_takeWhile (c :: cs)
  have leads : isDigit c = true → (c :: cs).takeWhile isDigit ≠ [] := by
    intro digit
    rw [List.takeWhile_cons, if_pos digit]
    exact List.cons_ne_nil _ _
  by_cases point : ∃ ds, (c :: cs).dropWhile isDigit = '.' :: ds
  · obtain ⟨ds, point⟩ := point
    have places : ds.takeWhile isDigit ++ ds.dropWhile isDigit = ds := List.takeWhile_append_dropWhile
    refine ⟨(c :: cs).takeWhile isDigit, some (ds.takeWhile isDigit), ds.dropWhile isDigit,
      wellFormed_places digits (digits_of_takeWhile ds) ?_, ?_, scan_point point⟩
    · by_cases digit : isDigit c = true
      · exact .inl (leads digit)
      · -- the number starts with its point, so a digit follows
        right
        have bare : (c :: cs).dropWhile isDigit = c :: cs := by rw [List.dropWhile_cons, if_neg digit]
        rw [bare] at point
        cases point
        have second : cs.head?.any isDigit = true := by
          simpa [startsNumeral, digit] using start
        cases cs with
        | nil => cases second
        | cons d more =>
          have digit' : isDigit d = true := second
          rw [List.takeWhile_cons, if_pos digit']
          exact List.cons_ne_nil _ _
    · have written : (NumeralSpan.mk ((c :: cs).takeWhile isDigit) (some (ds.takeWhile isDigit)) none
          []).characters = (c :: cs).takeWhile isDigit ++ '.' :: ds.takeWhile isDigit := by simp [characters]
      rw [written, List.append_assoc, List.cons_append, places, ← point, split]
  · have noPoint : ∀ d, ((c :: cs).dropWhile isDigit).head? = some d → d ≠ '.' := by
      rintro d first rfl
      obtain ⟨ds, same⟩ := List.head?_eq_some_iff.1 first
      exact point ⟨ds, same⟩
    refine ⟨(c :: cs).takeWhile isDigit, none, (c :: cs).dropWhile isDigit, wellFormed_whole digits ?_, ?_,
      scan_noPoint noPoint⟩
    · by_cases digit : isDigit c = true
      · exact leads digit
      · have bare : (c :: cs).dropWhile isDigit = c :: cs := by rw [List.dropWhile_cons, if_neg digit]
        have isPoint : c = '.' := by
          simp only [startsNumeral, Bool.or_eq_true, Bool.and_eq_true, beq_iff_eq] at start
          exact (start.resolve_left digit).1
        exact absurd ⟨cs, by rw [bare, isPoint]⟩ point
    · have written : (NumeralSpan.mk ((c :: cs).takeWhile isDigit) none none []).characters =
          (c :: cs).takeWhile isDigit := by simp [characters]
      rw [written, split]

theorem wellFormed_of_scan {c : Char} (start : startsNumeral c cs = true) (h : scan (c :: cs) = .ok s) :
    s.WellFormed := by
  obtain ⟨whole, fraction, after, formed, -, read⟩ := exists_mantissa start
  exact scanExponent_wellFormed formed (read ▸ h)

/-- An exponent without digits stands directly behind a mantissa. -/
theorem scan_error {c : Char} (start : startsNumeral c cs = true) (h : scan (c :: cs) = .error n) :
    ∃ text mark ds, IsMantissa text ∧ text.length = n ∧ c :: cs = text ++ mark :: ds ∧ IsMark mark ∧
      ¬StartsExponent ds := by
  obtain ⟨whole, fraction, after, formed, split, read⟩ := exists_mantissa start
  rw [read] at h
  obtain ⟨count, mark, ds, rfl, marked, bare⟩ := scanExponent_error h
  exact ⟨_, mark, ds, ⟨_, formed, rfl, rfl⟩, count.symm, split, marked, bare⟩

/-- In front of a mark without an exponent a scan stops. -/
theorem scan_of_hanging {text ds : List Char} (mantissa : IsMantissa text) (marked : IsMark mark)
    (bare : ¬StartsExponent ds) : scan (text ++ mark :: ds) = .error text.length := by
  obtain ⟨s, formed, none, rfl⟩ := mantissa
  have written : s.characters = (NumeralSpan.mk s.whole s.fraction Option.none []).characters := by
    simp [characters, none]
  have stop : ∀ c, (mark :: ds).head? = some c → isDigit c = false := by
    intro c first
    cases first
    exact marked.isDigit
  have point : ∀ c, (mark :: ds).head? = some c → c ≠ '.' := by
    intro c first
    cases first
    exact marked.ne_point
  have empty : (signSpan ds).2.takeWhile isDigit = [] := by
    by_contra nonempty
    exact bare (startsExponent_iff.2 nonempty)
  rw [written, scan_mantissa formed stop (fun _ => point), scanExponent, if_pos (isMark_iff.2 marked)]
  simp only [empty]
  rfl

end NumeralSpan

end ShaderDag
