import ShaderDag.Proofs.Inlining

/-!
# Where a syntax error is reported

Whatever the automaton has read can still become an expression: the operand that is expected next can be
supplied, and what is open can be closed from the inside out.  So when it stops, the token at which it stops
is the first one that cannot stand where it does.

* `Viable` — tokens that can be completed to an expression;
* `Frame.Reads.viable` — an operand behind unfinished parts, with what closes them;
* `ParseState.Reads.viable` — in front of the end of the input every state can be completed;
* `parseTokens_of_lexemes` — offsets do not matter for what is accepted;
* `parseTokens_of_stop` — a token at which the automaton stops is what the parser reports;
* `parse_stops_earliest` — a text that is refused is refused at its earliest offending token.
-/

namespace ShaderDag

/-- The tokens can be completed to tokens that derive an expression. -/
def Viable (ts : List Token) : Prop := ∃ us e, Derives .term (ts ++ us) e

/-! ### Unfinished parts can be finished -/

namespace Frame

variable {frames : List Frame} {ts own : List Token} {e : Expression}

/-- An operand stands wherever something is awaited. -/
theorem derives_awaited_of_unary (derived : Derives .unary own e) (frames : List Frame) :
    Derives (awaited frames) own e := by
  unfold awaited
  split
  · exact .ofUnary derived
  · exact derived
  · exact derived
  · exact .ofFactor (.ofUnary derived)

/-- A product stands wherever more than an operand is awaited. -/
theorem derives_awaited_of_factor (derived : Derives .factor own e) (place : awaited frames ≠ .unary) :
    Derives (awaited frames) own e := by
  unfold awaited at place ⊢
  split
  · exact derived
  · exact absurd rfl place
  · exact absurd rfl place
  · exact .ofFactor derived

theorem derives_awaited_of_primary (derived : Derives .primary own e) (frames : List Frame) :
    Derives (awaited frames) own e :=
  derives_awaited_of_unary (.ofPrimary derived) frames

/-- The tokens of unfinished parts, with what the innermost of them awaits, can be completed: one part after
the other is closed, from the inside out. -/
theorem Reads.viable (read : Reads frames ts) (derived : Derives (awaited frames) own e) :
    Viable (ts ++ own) := by
  -- closing the innermost part makes what the next one awaits, so the induction follows the stack
  induction read generalizing own e with
  | nil =>
    have whole : Derives .term own e := derived
    exact ⟨[], e, by simpa using whole⟩
  | @sum frames ts us left t op _ place leftDerived sign ih =>
    have closed : Derives (awaited frames) (us ++ t :: own) (.binary op left e t.offset) := by
      rw [place]
      exact .sum leftDerived sign derived
    simpa using ih closed
  | @product frames ts us left offset _ place leftDerived ih =>
    have closed : Derives (awaited frames) (us ++ ⟨.star, offset⟩ :: own) _ :=
      derives_awaited_of_factor (.product leftDerived derived) place
    simpa using ih closed
  | @negate frames ts offset _ ih =>
    have closed : Derives (awaited frames) (⟨.minus, offset⟩ :: own) _ :=
      derives_awaited_of_unary (.negate derived) frames
    simpa using ih closed
  | @group frames ts offset _ ih =>
    have closed := derives_awaited_of_primary (.group (o := offset) (c := 0) derived) frames
    obtain ⟨us, e', whole⟩ := ih closed
    exact ⟨⟨.closeParen, 0⟩ :: us, e', by simpa using whole⟩
  | @call frames ts text offset o _ ih =>
    have called : Derives .primary
        (⟨.name text, offset⟩ :: ⟨.openParen, o⟩ :: (own ++ [⟨.closeParen, 0⟩])) _ :=
      .call (.lone derived)
    obtain ⟨us, e', whole⟩ := ih (derives_awaited_of_primary called frames)
    exact ⟨⟨.closeParen, 0⟩ :: us, e', by simpa using whole⟩
  | @argument frames ts us text offset o c args _ earlier ih =>
    have called : Derives .primary (⟨.name text, offset⟩ :: ⟨.openParen, o⟩ ::
        ((us ++ ⟨.comma, c⟩ :: own) ++ [⟨.closeParen, 0⟩])) _ := .call (.more earlier derived)
    obtain ⟨vs, e', whole⟩ := ih (derives_awaited_of_primary called frames)
    exact ⟨⟨.closeParen, 0⟩ :: vs, e', by simpa using whole⟩

end Frame

theorem Viable.of_append {ts us : List Token} (h : Viable (ts ++ us)) : Viable ts := by
  obtain ⟨vs, e, derived⟩ := h
  exact ⟨us ++ vs, e, by simpa using derived⟩

namespace ParseState

variable {s : ParseState} {ts : List Token}

/-- **Every state in front of the end of the input can be completed.** -/
theorem Reads.viable (read : Reads s ts) (inside : ∀ e, s.1 ≠ .complete e) : Viable ts := by
  cases read with
  | @operand frames ts outer =>
    exact (outer.viable (Frame.derives_awaited_of_primary (.name "x" 0) frames)).of_append
  | @arguments frames ts text offset o outer =>
    have called := outer.viable (Frame.derives_awaited_of_primary (.emptyCall text offset o 0) frames)
    have longer : Viable (ts ++ [⟨.name text, offset⟩, ⟨.openParen, o⟩] ++ [⟨.closeParen, 0⟩]) := by
      simpa using called
    exact longer.of_append
  | @named frames ts text offset outer =>
    exact outer.viable (Frame.derives_awaited_of_primary (.name text offset) frames)
  | finished read place =>
    obtain ⟨before, own, rfl, outer, derived⟩ := read
    exact outer.viable (Frame.derives_awaited_of_factor derived place)
  | complete _ => exact absurd rfl (inside _)

end ParseState

/-! ### What is accepted -/

/-- Tokens are accepted only if those before the first end of the input derive something. -/
theorem exists_of_parseTokens {ts : List Token} {e : Expression} (h : parseTokens ts = .ok e) :
    ∃ us last rest, ts = us ++ ⟨.endOfInput, last⟩ :: rest ∧ Derives .term us e := by
  obtain ⟨t, listed, ends⟩ := exists_end_of_parseTokens h
  have some : (ts.find? fun t => t.lexeme == .endOfInput).isSome := by
    rw [List.find?_isSome]
    exact ⟨t, listed, beq_iff_eq.2 ends⟩
  obtain ⟨⟨lexeme, last⟩, found⟩ := Option.isSome_iff_exists.1 some
  obtain ⟨closing, us, rest, rfl, early⟩ := List.find?_eq_some_iff_append.1 found
  cases beq_iff_eq.1 closing
  have only : ∀ t ∈ us, t.lexeme ≠ .endOfInput := fun t ht same => by
    simpa [same] using early t ht
  exact ⟨us, last, rest, rfl, (parseTokens_eq_ok_iff only).1 h⟩

/-- Whether tokens are accepted does not depend on their offsets. -/
theorem parseTokens_of_lexemes {ts ts' : List Token} {e : Expression} (h : parseTokens ts = .ok e)
    (same : lexemes ts' = lexemes ts) : ∃ e', parseTokens ts' = .ok e' := by
  obtain ⟨us, last, rest, rfl, derived⟩ := exists_of_parseTokens h
  rw [lexemes, lexemes, List.map_append] at same
  obtain ⟨us', ends, rfl, front, back⟩ := List.map_eq_append_iff.1 same
  obtain ⟨last', more, rfl, -⟩ := exists_token back
  obtain ⟨e', derived', -⟩ := derived.relocate front
  exact ⟨e', parseTokens_of_derives derived'⟩

/-- Tokens that go on behind a stop are not accepted: an end of the input behind it comes too late. -/
theorem parseTokens_of_stop {before after : List Token} {t : Token} {s : ParseState} {f : SyntaxError}
    (came : ParseState.start.run before = .ok s) (failed : s.step t = .error f)
    (fresh : ∀ u ∈ before, u.lexeme ≠ .endOfInput) (e : Expression) :
    parseTokens (before ++ t :: after) ≠ .ok e := by
  intro accepted
  obtain ⟨us, last, rest, same, derived⟩ := exists_of_parseTokens accepted
  have front : us ++ [⟨.endOfInput, last⟩] <+: before ++ t :: after := ⟨rest, by simp [same]⟩
  have stop : before ++ [t] <+: before ++ t :: after := ⟨after, by simp⟩
  have reached : before ++ [t] <+: us ++ [⟨.endOfInput, last⟩] := by
    rcases List.prefix_or_prefix_of_prefix front stop with early | late
    · rcases List.prefix_concat_iff.1 early with equal | inside
      · exact equal ▸ List.prefix_rfl
      · exact (fresh ⟨.endOfInput, last⟩ (inside.subset (by simp)) rfl).elim
    · exact late
  obtain ⟨more, whole⟩ := reached
  have run : ParseState.start.run (us ++ [⟨.endOfInput, last⟩]) = .ok (.complete e, []) :=
    ParseState.run_closed_iff.2 ⟨e, derived, rfl⟩
  rw [← whole, List.append_assoc, ParseState.run_append, came, ok_bind, List.singleton_append,
    ParseState.run_cons, failed] at run
  cases run

/-- **A text is refused at its earliest offending token.**  If a text has tokens but no expression, then the
error points at one of its tokens, which may be the end of the input: the tokens before it can be completed to
tokens that are accepted, and no tokens that are accepted start with the lexemes up to and with that one. -/
theorem parse_stops_earliest {source : String} {ts : List Token} {f : SyntaxError}
    (lexed : tokenize source = .ok ts) (refused : parse source = .error f) :
    ∃ before t after, ts = before ++ t :: after ∧ f.offset = t.offset ∧
      (∃ us last e, parseTokens (before ++ us ++ [⟨.endOfInput, last⟩]) = .ok e) ∧
      ∀ vs, lexemes (before ++ [t]) <+: lexemes vs → ∀ e, parseTokens vs ≠ .ok e := by
  have failed : parseTokens ts = .error f := by
    have same : parse source = parseTokens ts := by
      show (tokenize source >>= _) = _
      rw [lexed]
      rfl
    rw [← same, refused]
  obtain ⟨ls, words⟩ := exists_lexes lexed
  obtain ⟨us, last, run, spelled⟩ := words.tokens 0
  have closed : tokenize source = .ok (us ++ [⟨.endOfInput, last⟩]) := run
  obtain rfl : ts = us ++ [⟨.endOfInput, last⟩] := Except.ok.inj (lexed.symm.trans closed)
  have only : ∀ t ∈ us, t.lexeme ≠ .endOfInput := (spelled ▸ words : Lexes _ (lexemes us)).only
  rw [parseTokens_eq_read only] at failed
  obtain ⟨before, t, after, s, split, came, stopped⟩ := ParseState.exists_of_read_error failed
  have read : s.Reads before := ParseState.Reads.run (.operand .nil) came
  -- the end of the input is the last token only, so it is not one of those before the stop
  have fresh : ∀ u ∈ before, u.lexeme ≠ .endOfInput := by
    intro u hu
    refine only u ?_
    have dropped := congrArg List.dropLast split
    rw [List.dropLast_concat, List.dropLast_append_of_ne_nil (by simp)] at dropped
    rw [dropped]
    exact List.mem_append_left _ hu
  refine ⟨before, t, after, split, ParseState.step_error stopped, ?_, ?_⟩
  · have inside : ∀ e, s.1 ≠ .complete e := by
      intro e closed
      obtain ⟨mode, frames⟩ := s
      cases closed
      obtain ⟨front, o, rfl, -⟩ := read.of_complete
      exact fresh ⟨.endOfInput, o⟩ (by simp) rfl
    obtain ⟨vs, e, derived⟩ := read.viable inside
    exact ⟨vs, 0, e, parseTokens_of_derives derived⟩
  · intro vs start e accepted
    obtain ⟨more, rest⟩ := start
    have same : lexemes (before ++ t :: more.map (⟨·, 0⟩)) = lexemes vs := by
      rw [← rest]
      simp [lexemes, Function.comp_def]
    obtain ⟨e', accepted'⟩ := parseTokens_of_lexemes accepted same
    exact parseTokens_of_stop came stopped fresh e' accepted'

/-- The second argument of a call is missing. -/
theorem missing_argument_stops :
    tokenize "f(a, )" = .ok [⟨.name "f", 0⟩, ⟨.openParen, 1⟩, ⟨.name "a", 2⟩, ⟨.comma, 3⟩, ⟨.closeParen, 5⟩,
      ⟨.endOfInput, 6⟩] ∧
    parse "f(a, )" = .error ⟨5, .unexpected .closeParen⟩ ∧
    ∃ before t after, [⟨.name "f", 0⟩, ⟨.openParen, 1⟩, ⟨.name "a", 2⟩, ⟨.comma, 3⟩, ⟨.closeParen, 5⟩,
        ⟨.endOfInput, 6⟩] = before ++ t :: after ∧ 5 = t.offset ∧
      (∃ us last e, parseTokens (before ++ us ++ [⟨.endOfInput, last⟩]) = .ok e) ∧
      ∀ vs, lexemes (before ++ [t]) <+: lexemes vs → ∀ e, parseTokens vs ≠ .ok e := by
  have lexed : tokenize "f(a, )" = .ok [⟨.name "f", 0⟩, ⟨.openParen, 1⟩, ⟨.name "a", 2⟩, ⟨.comma, 3⟩,
      ⟨.closeParen, 5⟩, ⟨.endOfInput, 6⟩] := by cbv
  have refused : parse "f(a, )" = .error ⟨5, .unexpected .closeParen⟩ := by
    rw [parse, lexed]
    rfl
  exact ⟨lexed, refused, parse_stops_earliest lexed refused⟩

end ShaderDag
