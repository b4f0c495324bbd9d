import ShaderDag.Proofs.Grammar
import ShaderDag.Proofs.Position

/-!
# Recursive descent

The descent and the automaton read the same tokens in the same order; the calls under way are the frames of
the stack.  So for each kind of part there is one equation: the automaton, in the state in which the part
begins, does over the remaining tokens what it does over those behind the part once it has the part's value.
A part that is refused makes the automaton fail with the same error.

* `Descent.Follows` — what a call does, told by the automaton, and the fuel that it needs;
* `Descent.Simulates` — all kinds of parts together, by induction on the fuel;
* `Descent.whole_agrees` — the descent does what the automaton does;
* `parseTokens_accepts` — the descent accepts exactly the grammar, stays inside its input and ends.
-/

namespace ShaderDag

namespace Descent

variable {α β : Type} {tokens : Array Token} {pos fuel : Nat} {t : Token}

/-! ### The automaton beside the descent

The automaton is given the tokens up to the end of the input; what stands behind in the array is never
reached. -/

open ShaderDag.Frame (awaited)
open ParseState (start afterOperand)

variable {ts : List Token} {s s' : ParseState} {frames : List Frame} {f : SyntaxError}

/-- An array that begins with some tokens, of which exactly the last is the end of the input. -/
structure Closed (tokens : Array Token) (ts : List Token) : Prop where
  front : ts <+: tokens.toList
  ends : ∀ pos t, ts[pos]? = some t → (t.lexeme = .endOfInput ↔ pos + 1 = ts.length)

theorem closed_toArray {us rest : List Token} {offset : Nat} (only : ∀ t ∈ us, t.lexeme ≠ .endOfInput) :
    Closed (us ++ ⟨.endOfInput, offset⟩ :: rest).toArray (us ++ [⟨.endOfInput, offset⟩]) where
  front := ⟨rest, by simp⟩
  ends := by
    intro pos t found
    rw [List.length_append, List.length_singleton]
    by_cases early : pos < us.length
    · rw [List.getElem?_append_left early] at found
      have other := only t (List.mem_of_getElem? found)
      constructor
      · exact fun same => absurd same other
      · omega
    · rw [List.getElem?_append_right (by omega), List.getElem?_singleton] at found
      split at found
      · next last =>
        cases found
        exact ⟨fun _ => by omega, fun _ => rfl⟩
      · cases found

/-- The token that comes next, in the array and for the automaton. -/
structure Next (tokens : Array Token) (ts : List Token) (pos : Nat) (t : Token) : Prop where
  here : tokens[pos]? = some t
  left : ts.drop pos = t :: ts.drop (pos + 1)
  /-- Behind everything but the end of the input there is a token. -/
  inside : t.lexeme ≠ .endOfInput → pos + 1 < ts.length ∧ stepped tokens pos = pos + 1
  last : t.lexeme = .endOfInput → pos + 1 = ts.length

theorem Closed.exists_next (closed : Closed tokens ts) (place : pos < ts.length) :
    ∃ t, Next tokens ts pos t := by
  obtain ⟨behind, whole⟩ := closed.front
  have found : ts[pos]? = some ts[pos] := List.getElem?_eq_getElem place
  have ends := closed.ends pos _ found
  have size : ts.length ≤ tokens.size := by
    rw [← Array.length_toList, ← whole]
    simp
  refine ⟨ts[pos], ?_, List.drop_eq_getElem_cons place, fun other => ?_, ends.1⟩
  · rw [← Array.getElem?_toList, ← whole, List.getElem?_append_left place, found]
  · have more : pos + 1 < ts.length := by
      have different : pos + 1 ≠ ts.length := fun last => other (ends.2 last)
      omega
    exact ⟨more, if_pos (by omega)⟩

theorem Next.consume_other {wanted : Lexeme} (next : Next tokens ts pos t) (other : t.lexeme ≠ wanted) :
    consume tokens wanted pos = .ok none pos := by
  rw [consume_run next.here, if_neg other]

theorem Next.consume_wanted {wanted : Lexeme} (next : Next tokens ts pos t) (same : t.lexeme = wanted)
    (inner : wanted ≠ .endOfInput) : consume tokens wanted pos = .ok (some t.offset) (pos + 1) := by
  subst same
  rw [consume_run next.here, if_pos rfl, (next.inside inner).2]

/-- One token of the automaton. -/
theorem Next.run (next : Next tokens ts pos t) (took : s.step t = .ok s') :
    s.run (ts.drop pos) = s'.run (ts.drop (pos + 1)) := by
  rw [next.left, ParseState.run_cons, took]
  rfl

theorem Next.run_error (next : Next tokens ts pos t) (stopped : s.step t = .error f) :
    s.run (ts.drop pos) = .error f := by
  rw [next.left, ParseState.run_cons, stopped]
  rfl

theorem Next.run_congr (next : Next tokens ts pos t) (same : s.step t = s'.step t) :
    s.run (ts.drop pos) = s'.run (ts.drop pos) := by
  rw [next.left, ParseState.run_cons, ParseState.run_cons, same]

theorem Next.head (follower : Lexeme → Prop) (next : Next tokens ts pos t) (can : follower t.lexeme) :
    ∀ u ∈ (ts.drop pos).head?, follower u.lexeme := by
  rw [next.left]
  simpa using can

theorem Next.of_head (follower : Lexeme → Prop) (next : Next tokens ts pos t)
    (can : ∀ u ∈ (ts.drop pos).head?, follower u.lexeme) : follower t.lexeme := by
  rw [next.left] at can
  exact can t rfl

/-- What a call at `pos` gives, told by the automaton in state `s`.  With a value it comes to `low` or beyond,
and to a token that can follow; the automaton does the rest from the state that the value leads to.  A call
remains unfinished only for lack of fuel. -/
def Follows (ts : List Token) (s : ParseState) (pos low : Nat) (enough : Prop)
    (value : α → ParseState) (follower : Lexeme → Prop) : EStateM.Result Stop Nat α → Prop
  | .ok a pos' => low ≤ pos' ∧ pos' < ts.length ∧
      (∀ t ∈ (ts.drop pos').head?, follower t.lexeme) ∧
      s.run (ts.drop pos) = (value a).run (ts.drop pos')
  | .error (.refused f) _ => s.run (ts.drop pos) = .error f
  | .error .outOfRange _ => False
  | .error .unfinished _ => ¬enough

section Rules

variable {low low' : Nat} {enough enough' : Prop} {value : α → ParseState} {value' : β → ParseState}
  {follower follower' : Lexeme → Prop} {pos' : Nat}

/-- The automaton may go some of the way first. -/
theorem Follows.of_run {result : EStateM.Result Stop Nat α}
    (came : s.run (ts.drop pos) = s'.run (ts.drop pos')) (more : enough → enough') (further : low ≤ low')
    (h : Follows ts s' pos' low' enough' value follower result) :
    Follows ts s pos low enough value follower result := by
  cases result with
  | ok a end' =>
    obtain ⟨reached, inside, next, same⟩ := h
    exact ⟨Nat.le_trans further reached, inside, next, came.trans same⟩
  | error stop end' =>
    cases stop with
    | refused f => exact came.trans h
    | outOfRange => exact h
    | unfinished => exact fun had => h (more had)

theorem Follows.bind {action : Descent α} {next : α → Descent β}
    (first : Follows ts s pos low enough' value follower (action pos)) (more : enough → enough')
    (rest : ∀ a pos', low ≤ pos' → pos' < ts.length → (∀ t ∈ (ts.drop pos').head?, follower t.lexeme) →
      Follows ts (value a) pos' low' enough value' follower' (next a pos')) :
    Follows ts s pos low' enough value' follower' ((action >>= next) pos) := by
  cases run : action pos with
  | ok a pos' =>
    rw [run] at first
    obtain ⟨reached, inside, can, same⟩ := first
    rw [bind_ok run]
    exact (rest a pos' reached inside can).of_run same id (Nat.le_refl low')
  | error stop pos' =>
    rw [run] at first
    rw [bind_error run]
    cases stop with
    | refused f => exact first
    | outOfRange => exact first
    | unfinished => exact fun had => first (more had)

theorem follows_refused {pos' : Nat} (stopped : s.run (ts.drop pos) = .error f) :
    Follows ts s pos low enough value follower ((throw (.refused f) : Descent α) pos') := stopped

theorem follows_unfinished (short : ¬enough) :
    Follows ts s pos low enough value follower ((throw .unfinished : Descent α) pos) := short

theorem follows_pure {a : α} {pos' : Nat} (reached : low ≤ pos') (inside : pos' < ts.length)
    (can : ∀ t ∈ (ts.drop pos').head?, follower t.lexeme)
    (same : s.run (ts.drop pos) = (value a).run (ts.drop pos')) :
    Follows ts s pos low enough value follower ((pure a : Descent α) pos') := ⟨reached, inside, can, same⟩

end Rules

/-! ### Parts of an expression -/

/-- A part that can be followed by anything. -/
abbrev Anything : Lexeme → Prop := fun _ => True

/-- What is not the sign of an operand. -/
def Unsigned (lexeme : Lexeme) : Prop := lexeme ≠ .minus

/-- What does not go on with a product. -/
def EndsProduct (lexeme : Lexeme) : Prop := lexeme ≠ .star

/-- What does not go on with a sum. -/
def EndsSum (lexeme : Lexeme) : Prop := lexeme ≠ .star ∧ lexeme ≠ .plus ∧ lexeme ≠ .minus

/-- What every kind of part does at every position, on every stack that waits for it. -/
structure Simulates (tokens : Array Token) (ts : List Token) (fuel : Nat) : Prop where
  primary : ∀ pos frames, pos < ts.length → (∀ t ∈ (ts.drop pos).head?, Unsigned t.lexeme) →
    Follows ts (.operand, frames) pos (pos + 1) (4 * (ts.length - pos) ≤ fuel + 3)
      (afterOperand · frames) Anything (Descent.primary tokens fuel pos)
  unary : ∀ pos frames, pos < ts.length →
    Follows ts (.operand, frames) pos (pos + 1) (4 * (ts.length - pos) ≤ fuel + 2)
      (afterOperand · frames) Anything (Descent.unary tokens fuel pos)
  moreFactors : ∀ pos frames left, pos < ts.length → awaited frames ≠ .unary →
    Follows ts (.finished left, frames) pos pos (4 * (ts.length - pos) ≤ fuel + 3)
      (fun e => (.finished e, frames)) EndsProduct (Descent.moreFactors tokens fuel left pos)
  factor : ∀ pos frames, pos < ts.length → awaited frames ≠ .unary →
    Follows ts (.operand, frames) pos (pos + 1) (4 * (ts.length - pos) ≤ fuel + 1)
      (fun e => (.finished e, frames)) EndsProduct (Descent.factor tokens fuel pos)
  moreTerms : ∀ pos frames left, pos < ts.length → awaited frames = .term →
    (∀ t ∈ (ts.drop pos).head?, EndsProduct t.lexeme) →
    Follows ts (.finished left, frames) pos pos (4 * (ts.length - pos) ≤ fuel + 3)
      (fun e => (.finished e, frames)) EndsSum (Descent.moreTerms tokens fuel left pos)
  term : ∀ pos frames, pos < ts.length → awaited frames = .term →
    Follows ts (.operand, frames) pos (pos + 1) (4 * (ts.length - pos) ≤ fuel)
      (fun e => (.finished e, frames)) EndsSum (Descent.term tokens fuel pos)
  moreArguments : ∀ pos frames text offset earlier, pos < ts.length →
    Follows ts (.operand, .call text offset earlier.reverse :: frames) pos (pos + 1)
      (4 * (ts.length - pos) + 1 ≤ fuel) (fun es => afterOperand (.call text es offset) frames) Anything
      (Descent.moreArguments tokens fuel earlier pos)
  arguments : ∀ pos frames text offset, pos < ts.length →
    Follows ts (.arguments, .call text offset [] :: frames) pos (pos + 1)
      (4 * (ts.length - pos) + 2 ≤ fuel) (fun es => afterOperand (.call text es offset) frames) Anything
      (Descent.arguments tokens fuel pos)

theorem simulates_zero : Simulates tokens ts 0 where
  primary := fun pos frames place _ => follows_unfinished (by omega)
  unary := fun pos frames place => follows_unfinished (by omega)
  moreFactors := fun pos frames left place _ => follows_unfinished (by omega)
  factor := fun pos frames place _ => follows_unfinished (by omega)
  moreTerms := fun pos frames left place _ _ => follows_unfinished (by omega)
  term := fun pos frames place _ => follows_unfinished (by omega)
  moreArguments := fun pos frames text offset earlier place => follows_unfinished (by omega)
  arguments := fun pos frames text offset place => follows_unfinished (by omega)

/-- What follows a finished product, other than `*`, follows the sum that it closes. -/
theorem readFollower_congr {value value' : Expression} {frames' : List Frame} (other : t.lexeme ≠ .star)
    (same : Frame.closeProduct value frames = Frame.closeProduct value' frames') :
    ParseState.readFollower t value frames = ParseState.readFollower t value' frames' := by
  unfold ParseState.readFollower
  rw [same]
  generalize Frame.closeProduct value' frames' = closed
  obtain ⟨sum, outer⟩ := closed
  obtain ⟨lexeme, offset⟩ := t
  cases lexeme with
  | star => exact absurd rfl other
  | comma | closeParen | endOfInput => rcases outer with _ | ⟨frame, outer⟩ <;> [rfl; cases frame <;> rfl]
  | _ => rfl

/-- Behind a finished sum, what neither goes on with it nor closes the innermost open part is refused. -/
theorem readFollower_refused {value : Expression} (waits : awaited frames = .term) (ends : EndsSum t.lexeme)
    (lone : ∀ text offset args outer, frames = .call text offset args :: outer → t.lexeme ≠ .comma)
    (other : t.lexeme ≠ Frame.closer frames) :
    ParseState.readFollower t value frames =
      .error ⟨t.offset, .expected (Frame.closer frames) t.lexeme⟩ := by
  obtain ⟨star, plus, minus⟩ := ends
  rw [ParseState.readFollower, ParseState.closeProduct_of_place value waits]
  dsimp only
  split
  · next same => exact absurd same star
  · next same => exact absurd same plus
  · next same => exact absurd same minus
  · next text offset args outer same => exact absurd same (lone text offset args outer rfl)
  -- what is left to follow is the token that closes
  · next same => exact absurd same other
  · next same => exact absurd same other
  · next same => exact absurd same other
  · rfl

/-- The closing parenthesis behind a finished sum, which gives the part that it closes its value. -/
theorem closing_follows {low : Nat} {enough : Prop} {sum : Expression} {a : α} {value : α → ParseState}
    (closed : Closed tokens ts) (place : pos < ts.length) (reached : low ≤ pos + 1)
    (waits : awaited frames = .term) (closer : Frame.closer frames = .closeParen)
    (ends : ∀ t ∈ (ts.drop pos).head?, EndsSum t.lexeme)
    (lone : ∀ text offset args outer, frames = .call text offset args :: outer →
      ∀ t ∈ (ts.drop pos).head?, t.lexeme ≠ .comma)
    (took : ∀ t : Token, t.lexeme = .closeParen → ParseState.step (.finished sum, frames) t = .ok (value a)) :
    Follows ts (.finished sum, frames) pos low enough value Anything
      ((do
        expect tokens .closeParen
        return a : Descent α) pos) := by
  obtain ⟨t, next⟩ := closed.exists_next place
  have run := expect_run next.here .closeParen
  by_cases closing : t.lexeme = .closeParen
  · obtain ⟨more, moved⟩ := next.inside (by simp [closing])
    rw [if_pos closing, moved] at run
    rw [bind_ok run]
    exact follows_pure reached more (fun _ _ => trivial) (next.run (took t closing))
  · rw [if_neg closing] at run
    rw [bind_error run]
    refine next.run_error ?_
    rw [← closer] at closing ⊢
    exact readFollower_refused waits (next.of_head EndsSum ends)
      (fun text offset args outer same => next.of_head (· ≠ .comma) (lone text offset args outer same))
        closing

namespace Simulates

variable (calls : Simulates tokens ts fuel)
include calls

theorem unary_succ (closed : Closed tokens ts) (place : pos < ts.length) (frames : List Frame) :
    Follows ts (.operand, frames) pos (pos + 1) (4 * (ts.length - pos) ≤ fuel + 1 + 2)
      (afterOperand · frames) Anything (Descent.unary tokens (fuel + 1) pos) := by
  obtain ⟨t, next⟩ := closed.exists_next place
  rw [Descent.unary]
  by_cases sign : t.lexeme = .minus
  · obtain ⟨more, -⟩ := next.inside (by simp [sign])
    have step : ParseState.step (.operand, frames) t = .ok (.operand, .negate t.offset :: frames) := by
      simp only [ParseState.step, ParseState.readOperand, sign]
    rw [bind_ok (next.consume_wanted sign (by simp))]
    refine Follows.of_run (next.run step) id (Nat.le_refl _) ?_
    refine (calls.unary (pos + 1) (.negate t.offset :: frames) more).bind (by omega) ?_
    intro e pos' reached inside _
    exact ⟨by omega, inside, fun _ _ => trivial, rfl⟩
  · rw [bind_ok (next.consume_other sign)]
    exact (calls.primary pos frames place (next.head Unsigned sign)).of_run rfl (by omega) (Nat.le_refl _)

theorem moreFactors_succ (closed : Closed tokens ts) (place : pos < ts.length) (left : Expression)
    (waits : awaited frames ≠ .unary) :
    Follows ts (.finished left, frames) pos pos (4 * (ts.length - pos) ≤ fuel + 1 + 3)
      (fun e => (.finished e, frames)) EndsProduct (Descent.moreFactors tokens (fuel + 1) left pos) := by
  obtain ⟨t, next⟩ := closed.exists_next place
  rw [Descent.moreFactors]
  by_cases star : t.lexeme = .star
  · obtain ⟨more, -⟩ := next.inside (by simp [star])
    have step : ParseState.step (.finished left, frames) t =
        .ok (.operand, .product left t.offset :: frames) := by
      simp only [ParseState.step, ParseState.readFollower, star]
    rw [bind_ok (next.consume_wanted star (by simp))]
    refine Follows.of_run (next.run step) id (Nat.le_refl _) ?_
    refine (calls.unary (pos + 1) (.product left t.offset :: frames) more).bind (by omega) ?_
    intro right pos' reached inside _
    exact (calls.moreFactors pos' frames _ inside waits).of_run rfl (by omega) (by omega)
  · rw [bind_ok (next.consume_other star)]
    exact follows_pure (Nat.le_refl _) place (next.head EndsProduct star) rfl

theorem factor_succ (place : pos < ts.length) (waits : awaited frames ≠ .unary) :
    Follows ts (.operand, frames) pos (pos + 1) (4 * (ts.length - pos) ≤ fuel + 1 + 1)
      (fun e => (.finished e, frames)) EndsProduct (Descent.factor tokens (fuel + 1) pos) := by
  rw [Descent.factor]
  refine (calls.unary pos frames place).bind (by omega) ?_
  intro first pos' reached inside _
  have finished : afterOperand first frames = (.finished first, frames) := by
    rw [afterOperand, ParseState.closeOperand_of_place first waits]
  rw [finished]
  exact (calls.moreFactors pos' frames first inside waits).of_run rfl (by omega) (by omega)

/-- One more product behind a sign, and the rest of the sum. -/
theorem signed_succ {op : Operator} {sign : Lexeme} (closed : Closed tokens ts) (next : Next tokens ts pos t)
    (signed : t.lexeme = sign) (adds : sign.additive? = some op) (left : Expression)
    (waits : awaited frames = .term) :
    Follows ts (.finished left, frames) pos pos (4 * (ts.length - pos) ≤ fuel + 1 + 3)
      (fun e => (.finished e, frames)) EndsSum
      ((do
        let right ← Descent.factor tokens fuel
        Descent.moreTerms tokens fuel (.binary op left right t.offset) : Descent Expression) (pos + 1)) := by
  have inner : sign ≠ .endOfInput := by
    rintro rfl
    cases adds
  obtain ⟨more, -⟩ := next.inside (signed ▸ inner)
  have step : ParseState.step (.finished left, frames) t =
      .ok (.operand, .sum left op t.offset :: frames) := by
    subst signed
    simp only [ParseState.step, ParseState.readFollower, ParseState.closeProduct_of_place left waits]
    cases h : t.lexeme <;> rw [h] at adds <;> cases adds <;> rfl
  refine Follows.of_run (next.run step) id (Nat.le_refl _) ?_
  have inside : awaited (.sum left op t.offset :: frames) ≠ .unary := by simp [awaited]
  refine (calls.factor (pos + 1) (.sum left op t.offset :: frames) more inside).bind (by omega) ?_
  intro right pos' reached inside can
  obtain ⟨u, next'⟩ := closed.exists_next inside
  have other : u.lexeme ≠ .star := next'.of_head EndsProduct can
  -- the automaton closes the sum only with the next token, which does not go on with the product
  have close : ParseState.step (.finished right, .sum left op t.offset :: frames) u =
      ParseState.step (.finished (.binary op left right t.offset), frames) u := by
    rw [ParseState.step_finished, ParseState.step_finished]
    refine readFollower_congr other ?_
    rw [ParseState.closeProduct_of_place _ waits]
    rfl
  exact (calls.moreTerms pos' frames _ inside waits can).of_run (next'.run_congr close) (by omega) (by omega)

theorem moreTerms_succ (closed : Closed tokens ts) (place : pos < ts.length) (left : Expression)
    (waits : awaited frames = .term) (can : ∀ u ∈ (ts.drop pos).head?, EndsProduct u.lexeme) :
    Follows ts (.finished left, frames) pos pos (4 * (ts.length - pos) ≤ fuel + 1 + 3)
      (fun e => (.finished e, frames)) EndsSum (Descent.moreTerms tokens (fuel + 1) left pos) := by
  obtain ⟨t, next⟩ := closed.exists_next place
  rw [Descent.moreTerms]
  by_cases plus : t.lexeme = .plus
  · rw [bind_ok (next.consume_wanted plus (by simp))]
    exact calls.signed_succ closed next plus rfl left waits
  · rw [bind_ok (next.consume_other plus)]
    dsimp only
    by_cases minus : t.lexeme = .minus
    · rw [bind_ok (next.consume_wanted minus (by simp))]
      exact calls.signed_succ closed next minus rfl left waits
    · rw [bind_ok (next.consume_other minus)]
      exact follows_pure (Nat.le_refl _) place
        (next.head EndsSum ⟨next.of_head EndsProduct can, plus, minus⟩) rfl

theorem term_succ (place : pos < ts.length) (waits : awaited frames = .term) :
    Follows ts (.operand, frames) pos (pos + 1) (4 * (ts.length - pos) ≤ fuel + 1)
      (fun e => (.finished e, frames)) EndsSum (Descent.term tokens (fuel + 1) pos) := by
  rw [Descent.term]
  refine (calls.factor pos frames place (by simp [waits])).bind (by omega) ?_
  intro first pos' reached inside can
  exact (calls.moreTerms pos' frames first inside waits can).of_run rfl (by omega) (by omega)

/-- A name, or a call if an opening parenthesis comes next. -/
theorem named_succ (closed : Closed tokens ts) (more : pos + 1 < ts.length) (text : String) (offset : Nat)
    (frames : List Frame) :
    Follows ts (.named text offset, frames) (pos + 1) (pos + 1) (4 * (ts.length - pos) ≤ fuel + 1 + 3)
      (afterOperand · frames) Anything
      ((do
        match ← consume tokens .openParen with
        | some _ => do
          let args ← Descent.arguments tokens fuel
          return .call text args offset
        | none => return .name text offset : Descent Expression) (pos + 1)) := by
  obtain ⟨u, next⟩ := closed.exists_next more
  by_cases opening : u.lexeme = .openParen
  · obtain ⟨more', -⟩ := next.inside (by simp [opening])
    have step : ParseState.step (.named text offset, frames) u =
        .ok (.arguments, .call text offset [] :: frames) := by
      simp only [ParseState.step, if_pos opening]
    rw [bind_ok (next.consume_wanted opening (by simp))]
    refine Follows.of_run (next.run step) id (Nat.le_refl _) ?_
    refine (calls.arguments (pos + 1 + 1) frames text offset more').bind (by omega) ?_
    intro args pos' reached inside _
    exact follows_pure (by omega) inside (fun _ _ => trivial) rfl
  · rw [bind_ok (next.consume_other opening)]
    refine follows_pure (Nat.le_refl _) more (fun _ _ => trivial) (next.run_congr ?_)
    rw [ParseState.actsAs_named text offset frames u opening]
    rfl

theorem primary_succ (closed : Closed tokens ts) (place : pos < ts.length) (frames : List Frame)
    (unsigned : ∀ t ∈ (ts.drop pos).head?, Unsigned t.lexeme) :
    Follows ts (.operand, frames) pos (pos + 1) (4 * (ts.length - pos) ≤ fuel + 1 + 3)
      (afterOperand · frames) Anything (Descent.primary tokens (fuel + 1) pos) := by
  obtain ⟨t, next⟩ := closed.exists_next place
  have other : t.lexeme ≠ .minus := next.of_head Unsigned unsigned
  rw [Descent.primary, bind_ok (bump_run next.here)]
  have reads := ParseState.step_operand frames t
  unfold ParseState.readOperand at reads
  cases kind : t.lexeme with
  | numeral value =>
    obtain ⟨more, moved⟩ := next.inside (by simp [kind])
    rw [moved]
    rw [kind] at reads
    exact follows_pure (Nat.le_refl _) more (fun _ _ => trivial) (next.run reads)
  | name text =>
    obtain ⟨more, moved⟩ := next.inside (by simp [kind])
    rw [moved]
    rw [kind] at reads
    exact (calls.named_succ closed more text t.offset frames).of_run (next.run reads) id (Nat.le_refl _)
  | openParen =>
    obtain ⟨more, moved⟩ := next.inside (by simp [kind])
    rw [moved]
    rw [kind] at reads
    refine Follows.of_run (next.run reads) id (Nat.le_refl _) ?_
    refine (calls.term (pos + 1) (.group :: frames) more rfl).bind (by omega) ?_
    intro inner pos' reached inside can
    have lone : ∀ text offset args outer, Frame.group :: frames = .call text offset args :: outer →
        ∀ u ∈ (ts.drop pos').head?, u.lexeme ≠ .comma := by
      rintro _ _ _ _ ⟨⟩
    refine closing_follows closed inside (by omega) rfl rfl can lone fun u closing => ?_
    rw [ParseState.step_finished, ParseState.readFollower, closing]
    rfl
  | minus => exact absurd kind other
  | closeParen | comma | plus | star | endOfInput =>
    rw [kind] at reads
    exact follows_refused (next.run_error reads)

theorem moreArguments_succ (closed : Closed tokens ts) (place : pos < ts.length) (frames : List Frame)
    (text : String) (offset : Nat) (earlier : List Expression) :
    Follows ts (.operand, .call text offset earlier.reverse :: frames) pos (pos + 1)
      (4 * (ts.length - pos) + 1 ≤ fuel + 1) (fun es => afterOperand (.call text es offset) frames) Anything
      (Descent.moreArguments tokens (fuel + 1) earlier pos) := by
  rw [Descent.moreArguments]
  refine (calls.term pos (.call text offset earlier.reverse :: frames) place rfl).bind (by omega) ?_
  intro e pos' reached inside can
  obtain ⟨t, next⟩ := closed.exists_next inside
  have listed : e :: earlier.reverse = (earlier ++ [e]).reverse := by simp
  by_cases comma : t.lexeme = .comma
  · obtain ⟨more, -⟩ := next.inside (by simp [comma])
    have step : ParseState.step (.finished e, .call text offset earlier.reverse :: frames) t =
        .ok (.operand, .call text offset (earlier ++ [e]).reverse :: frames) := by
      rw [← listed, ParseState.step_finished, ParseState.readFollower, comma]
      rfl
    rw [bind_ok (next.consume_wanted comma (by simp))]
    exact (calls.moreArguments (pos' + 1) frames text offset (earlier ++ [e]) more).of_run (next.run step)
      (by omega) (by omega)
  · rw [bind_ok (next.consume_other comma)]
    refine closing_follows closed inside (by omega) rfl rfl can
      (fun _ _ _ _ _ => next.head (· ≠ .comma) comma) ?_
    intro u closing
    rw [ParseState.step_finished, ParseState.readFollower, closing]
    show Except.ok (afterOperand (.call text (e :: earlier.reverse).reverse offset) frames) = _
    rw [listed, List.reverse_reverse]

theorem arguments_succ (closed : Closed tokens ts) (place : pos < ts.length) (frames : List Frame)
    (text : String) (offset : Nat) :
    Follows ts (.arguments, .call text offset [] :: frames) pos (pos + 1)
      (4 * (ts.length - pos) + 2 ≤ fuel + 1) (fun es => afterOperand (.call text es offset) frames) Anything
      (Descent.arguments tokens (fuel + 1) pos) := by
  obtain ⟨t, next⟩ := closed.exists_next place
  rw [Descent.arguments]
  by_cases closing : t.lexeme = .closeParen
  · obtain ⟨more, -⟩ := next.inside (by simp [closing])
    have step : ParseState.step (.arguments, .call text offset [] :: frames) t =
        .ok (afterOperand (.call text [] offset) frames) := by
      simp only [ParseState.step, closing]
    rw [bind_ok (next.consume_wanted closing (by simp))]
    exact follows_pure (Nat.le_refl _) more (fun _ _ => trivial) (next.run step)
  · rw [bind_ok (next.consume_other closing)]
    exact (calls.moreArguments pos frames text offset [] place).of_run
      (next.run_congr (ParseState.step_arguments closing _)) (by omega) (Nat.le_refl _)

theorem succ (closed : Closed tokens ts) : Simulates tokens ts (fuel + 1) where
  primary := fun _ frames place unsigned => calls.primary_succ closed place frames unsigned
  unary := fun _ frames place => calls.unary_succ closed place frames
  moreFactors := fun _ _ left place waits => calls.moreFactors_succ closed place left waits
  factor := fun _ _ place waits => calls.factor_succ place waits
  moreTerms := fun _ _ left place waits can => calls.moreTerms_succ closed place left waits can
  term := fun _ _ place waits => calls.term_succ place waits
  moreArguments := fun _ frames text offset earlier place =>
    calls.moreArguments_succ closed place frames text offset earlier
  arguments := fun _ frames text offset place => calls.arguments_succ closed place frames text offset

end Simulates

theorem simulates (closed : Closed tokens ts) (fuel : Nat) : Simulates tokens ts fuel := by
  induction fuel with
  | zero => exact simulates_zero
  | succ fuel ih => exact ih.succ closed

/-! ### Whole token lists -/

/-- A run ends as the automaton does, unless it lacks fuel. -/
def Agrees (ts : List Token) (enough : Prop) : EStateM.Result Stop Nat Expression → Prop
  | .ok e _ => start.run ts = .ok (.complete e, [])
  | .error (.refused f) _ => start.run ts = .error f
  | .error .outOfRange _ => False
  | .error .unfinished _ => ¬enough

/-- **The descent does what the automaton does.** -/
theorem whole_agrees (closed : Closed tokens ts) (place : 0 < ts.length) (fuel : Nat) :
    Agrees ts (4 * ts.length ≤ fuel) (whole tokens fuel 0) := by
  have part := (simulates closed fuel).term 0 [] place rfl
  rw [whole]
  cases run : term tokens fuel 0 with
  | error stop pos =>
    rw [run] at part
    rw [bind_error run]
    cases stop <;> exact part
  | ok e pos =>
    rw [run] at part
    obtain ⟨-, inside, can, came⟩ := part
    obtain ⟨t, next⟩ := closed.exists_next inside
    have came : start.run ts = ParseState.run (.finished e, []) (ts.drop pos) := came
    have expected := expect_run next.here .endOfInput
    rw [bind_ok run]
    by_cases ends : t.lexeme = .endOfInput
    · rw [if_pos ends] at expected
      rw [bind_ok expected]
      have step : ParseState.step (.finished e, []) t = .ok (.complete e, []) := by
        rw [ParseState.step_finished, ParseState.readFollower, ends]
        rfl
      show start.run ts = .ok (.complete e, [])
      rw [came, next.run step, next.last ends, List.drop_length]
      rfl
    · rw [if_neg ends] at expected
      rw [bind_error expected]
      show start.run ts = .error _
      rw [came]
      have lone : ∀ text offset args outer, ([] : List Frame) = .call text offset args :: outer →
          t.lexeme ≠ .comma := by
        rintro _ _ _ _ ⟨⟩
      exact next.run_error (readFollower_refused rfl (next.of_head EndsSum can) lone ends)

/-- A run that ends at a position with an expression or a refusal. -/
def ended (result : Except SyntaxError Expression) (pos : Nat) : EStateM.Result Stop Nat Expression :=
  match result with
  | .ok e => .ok e pos
  | .error f => .error (.refused f) pos

/-- With enough fuel there is a result, and it is the automaton's. -/
theorem exists_whole (closed : Closed tokens ts) (place : 0 < ts.length) (enough : 4 * ts.length ≤ fuel) :
    ∃ pos, whole tokens fuel 0 = ended (ParseState.read ts) pos := by
  have agrees := whole_agrees closed place fuel
  cases run : whole tokens fuel 0 with
  | ok e pos =>
    rw [run] at agrees
    exact ⟨pos, by rw [ParseState.read_of_complete agrees]; rfl⟩
  | error stop pos =>
    rw [run] at agrees
    cases stop with
    | refused f => exact ⟨pos, by rw [ParseState.read_of_error agrees]; rfl⟩
    | outOfRange => exact agrees.elim
    | unfinished => exact absurd enough agrees

end Descent

/-! ### The language of the parser -/

variable {us rest : List Token} {offset : Nat} {e : Expression}

/-- The parser gives what the automaton gives on the tokens up to the first end of the input. -/
theorem parseTokens_eq_read (only : ∀ t ∈ us, t.lexeme ≠ .endOfInput) :
    parseTokens (us ++ ⟨.endOfInput, offset⟩ :: rest) =
      ParseState.read (us ++ [⟨.endOfInput, offset⟩]) := by
  have closed : Descent.Closed (us ++ ⟨.endOfInput, offset⟩ :: rest).toArray
      (us ++ [⟨.endOfInput, offset⟩]) := Descent.closed_toArray only
  let last : Token := ⟨.endOfInput, offset⟩
  have enough : 4 * (us ++ [last]).length ≤ 4 * (us ++ last :: rest).length := by
    simp only [List.length_append, List.length_cons, List.length_nil]
    omega
  obtain ⟨pos, run⟩ := Descent.exists_whole closed (by simp) enough
  rw [parseTokens, run]
  cases ParseState.read (us ++ [⟨.endOfInput, offset⟩]) <;> rfl

/-- An expression is read exactly if the tokens before the end derive it. -/
theorem parseTokens_eq_ok_iff (only : ∀ t ∈ us, t.lexeme ≠ .endOfInput) :
    parseTokens (us ++ ⟨.endOfInput, offset⟩ :: rest) = .ok e ↔ Derives .term us e := by
  rw [parseTokens_eq_read only, ParseState.read_closed_iff]

theorem parseTokens_of_derives (derived : Derives .term us e) :
    parseTokens (us ++ ⟨.endOfInput, offset⟩ :: rest) = .ok e :=
  (parseTokens_eq_ok_iff derived.end_not_mem).2 derived

/-- Tokens without an end of the input are not accepted, since it has to stand behind the expression. -/
theorem exists_end_of_parseTokens {ts : List Token} (h : parseTokens ts = .ok e) :
    ∃ t ∈ ts, t.lexeme = .endOfInput := by
  cases run : Descent.whole ts.toArray (4 * ts.length) 0 with
  | error stop pos =>
    rw [parseTokens, run] at h
    cases stop <;> cases h
  | ok e' pos' =>
    obtain ⟨e₁, pos, -, last⟩ := bind_eq_ok run
    obtain ⟨_, pos₂, closing, -⟩ := bind_eq_ok last
    cases here : ts[pos]? with
    | none =>
      have outside : ts.toArray[pos]? = none := by rw [List.getElem?_toArray, here]
      rw [Descent.expect, bind_error (Descent.peek_outside outside)] at closing
      cases closing
    | some t =>
      rw [Descent.expect_run (by rw [List.getElem?_toArray, here])] at closing
      split at closing
      · next ends => exact ⟨t, List.mem_of_getElem? here, ends⟩
      · cases closing

/-- **The parser accepts exactly the grammar.**  A token list whose only end of the input is its last token
has an expression if and only if the tokens before the end derive from `term`, and it is the one that the
derivation determines.  However many calls a run may nest, its position is that of a token, and it never looks
at another one; with four calls for each token it ends, with the expression or a refusal at one of the
tokens. -/
theorem parseTokens_accepts (ts : List Token) (offset : Nat) (only : ∀ t ∈ ts, t.lexeme ≠ .endOfInput) :
    let closed := ts ++ [⟨.endOfInput, offset⟩]
    (∀ e, parseTokens closed = .ok e ↔ Derives .term ts e) ∧
    (∀ e e', Derives .term ts e → Derives .term ts e' → e = e') ∧
    (∀ fuel, Descent.InRange closed.toArray (Descent.whole closed.toArray fuel 0)) ∧
    (∀ fuel, 4 * closed.length ≤ fuel →
      ∃ pos, Descent.whole closed.toArray fuel 0 = Descent.ended (parseTokens closed) pos) ∧
    ∀ f, parseTokens closed = .error f → ∃ t ∈ closed, f.offset = t.offset := by
  intro closed
  have ends : Descent.Closed closed.toArray closed := Descent.closed_toArray only
  have filled : 0 < closed.length := by simp [closed]
  have same : parseTokens closed = ParseState.read closed := parseTokens_eq_read only
  refine ⟨fun e => parseTokens_eq_ok_iff only, fun e e' he he' => ?_, fun fuel => ?_, fun fuel enough => ?_,
    fun f refused => ?_⟩
  · have read : parseTokens closed = .ok e := parseTokens_of_derives he
    rw [parseTokens_of_derives he'] at read
    cases read
    rfl
  · exact Descent.stays_whole closed.toArray fuel 0 (by simpa using filled)
  · rw [same]
    exact Descent.exists_whole ends filled enough
  · rw [same] at refused
    obtain ⟨before, t, after, s, split, -, failed⟩ := ParseState.exists_of_read_error refused
    exact ⟨t, by simp [closed, split], ParseState.step_error failed⟩

/-- A difference of a name and a product with a sign in it. -/
theorem difference_accepts :
    let ts : List Token :=
      [⟨.name "a", 0⟩, ⟨.minus, 2⟩, ⟨.name "b", 4⟩, ⟨.star, 6⟩, ⟨.minus, 8⟩, ⟨.name "c", 9⟩]
    let e : Expression :=
      .binary .sub (.name "a" 0) (.binary .mul (.name "b" 4) (.negate (.name "c" 9) 8) 6) 2
    let closed : List Token := ts ++ [⟨.endOfInput, 10⟩]
    (∀ t ∈ ts, t.lexeme ≠ .endOfInput) ∧ Derives .term ts e ∧
      (∀ fuel, Descent.InRange closed.toArray (Descent.whole closed.toArray fuel 0)) ∧
      ∃ pos, Descent.whole closed.toArray 28 0 = .ok e pos := by
  intro ts e closed
  have only : ∀ t ∈ ts, t.lexeme ≠ .endOfInput := by decide
  have accepts := parseTokens_accepts ts 10 only
  have read : parseTokens closed = .ok e := by rfl
  obtain ⟨pos, run⟩ := accepts.2.2.2.1 28 (Nat.le_refl _)
  rw [read] at run
  exact ⟨only, (accepts.1 e).1 read, accepts.2.2.1, pos, run⟩

end ShaderDag
