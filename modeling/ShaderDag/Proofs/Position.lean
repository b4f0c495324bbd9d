import ShaderDag.Text.Parser
import ShaderDag.Proofs.Lists

/-!
# The position of the descent

The descent looks at one token at a time and moves on by one, but never behind the last token.  So the
position stays that of a token, on any tokens and with any number of calls, whether the run succeeds or not.

* `Descent.peek_run`, `Descent.bump_run`, `Descent.expect_run`, `Descent.consume_run` — what each look does;
* `Descent.Stays` — an action that keeps the position inside the tokens, with the rules for composed ones;
* `Descent.StaysInside` — all kinds of parts together, by induction on the fuel;
* `Descent.stays_whole` — no access is out of range.
-/

namespace ShaderDag

namespace Descent

variable {α β : Type} {tokens : Array Token} {pos : Nat} {t : Token}

/-! ### Single tokens -/

/-- The position behind a token, but never behind the last one. -/
def stepped (tokens : Array Token) (pos : Nat) : Nat := if pos + 1 < tokens.size then pos + 1 else pos

theorem stepped_lt (here : pos < tokens.size) : stepped tokens pos < tokens.size := by
  unfold stepped
  split <;> assumption

theorem peek_run (here : tokens[pos]? = some t) : peek tokens pos = .ok t pos := by
  rw [peek, bind_ok get_ok, here]
  rfl

theorem peek_outside (here : tokens[pos]? = none) : peek tokens pos = .error .outOfRange pos := by
  rw [peek, bind_ok get_ok, here]
  rfl

theorem bump_run (here : tokens[pos]? = some t) : bump tokens pos = .ok t (stepped tokens pos) := by
  rw [bump, bind_ok (peek_run here)]
  show (if pos + 1 < tokens.size then set (pos + 1) >>= fun _ => pure t else pure t : Descent Token) pos = _
  unfold stepped
  split <;> rfl

theorem expect_run (here : tokens[pos]? = some t) (wanted : Lexeme) :
    expect tokens wanted pos =
      if t.lexeme = wanted then .ok () (stepped tokens pos)
      else .error (.refused ⟨t.offset, .expected wanted t.lexeme⟩) pos := by
  rw [expect, bind_ok (peek_run here)]
  split
  · rw [bind_ok (bump_run here)]
    rfl
  · rfl

theorem consume_run (here : tokens[pos]? = some t) (wanted : Lexeme) :
    consume tokens wanted pos =
      if t.lexeme = wanted then .ok (some t.offset) (stepped tokens pos) else .ok none pos := by
  rw [consume, bind_ok (peek_run here)]
  split
  · rw [bind_ok (bump_run here)]
    rfl
  · rfl

/-! ### The position stays inside -/

/-- A result at the position of a token, with no access beside the tokens on the way. -/
def InRange (tokens : Array Token) : EStateM.Result Stop Nat α → Prop
  | .ok _ pos => pos < tokens.size
  | .error stop pos => pos < tokens.size ∧ stop ≠ .outOfRange

/-- An action that leads from the position of a token to that of a token. -/
def Stays (tokens : Array Token) (action : Descent α) : Prop :=
  ∀ pos, pos < tokens.size → InRange tokens (action pos)

theorem stays_pure (a : α) : Stays tokens (pure a) := fun _ here => here

theorem stays_throw {stop : Stop} (other : stop ≠ .outOfRange) : Stays tokens (throw stop : Descent α) :=
  fun _ here => ⟨here, other⟩

theorem Stays.bind {action : Descent α} {next : α → Descent β} (first : Stays tokens action)
    (rest : ∀ a, Stays tokens (next a)) : Stays tokens (action >>= next) := by
  intro pos here
  have came := first pos here
  cases run : action pos with
  | ok a pos' =>
    rw [run] at came
    rw [bind_ok run]
    exact rest a pos' came
  | error stop pos' =>
    rw [run] at came
    rw [bind_error run]
    exact came

theorem stays_bump : Stays tokens (bump tokens) := by
  intro pos here
  rw [bump_run (Array.getElem?_eq_getElem here)]
  exact stepped_lt here

theorem stays_expect (wanted : Lexeme) : Stays tokens (expect tokens wanted) := by
  intro pos here
  rw [expect_run (Array.getElem?_eq_getElem here)]
  split
  · exact stepped_lt here
  · exact ⟨here, by simp⟩

theorem stays_consume (wanted : Lexeme) : Stays tokens (consume tokens wanted) := by
  intro pos here
  rw [consume_run (Array.getElem?_eq_getElem here)]
  split
  · exact stepped_lt here
  · exact here

/-- Every kind of part stays inside, with a given number of nested calls. -/
structure StaysInside (tokens : Array Token) (fuel : Nat) : Prop where
  term : Stays tokens (Descent.term tokens fuel)
  moreTerms : ∀ left, Stays tokens (Descent.moreTerms tokens fuel left)
  factor : Stays tokens (Descent.factor tokens fuel)
  moreFactors : ∀ left, Stays tokens (Descent.moreFactors tokens fuel left)
  unary : Stays tokens (Descent.unary tokens fuel)
  primary : Stays tokens (Descent.primary tokens fuel)
  arguments : Stays tokens (Descent.arguments tokens fuel)
  moreArguments : ∀ earlier, Stays tokens (Descent.moreArguments tokens fuel earlier)

theorem staysInside_zero : StaysInside tokens 0 where
  term := stays_throw (by simp)
  moreTerms := fun _ => stays_throw (by simp)
  factor := stays_throw (by simp)
  moreFactors := fun _ => stays_throw (by simp)
  unary := stays_throw (by simp)
  primary := stays_throw (by simp)
  arguments := stays_throw (by simp)
  moreArguments := fun _ => stays_throw (by simp)

variable {fuel : Nat}

theorem StaysInside.primary_succ (calls : StaysInside tokens fuel) :
    Stays tokens (Descent.primary tokens (fuel + 1)) := by
  rw [Descent.primary]
  refine stays_bump.bind fun t => ?_
  split
  · exact stays_pure _
  · refine (stays_consume _).bind fun opening => ?_
    split
    · exact calls.arguments.bind fun _ => stays_pure _
    · exact stays_pure _
  · exact calls.term.bind fun _ => (stays_expect _).bind fun _ => stays_pure _
  · exact stays_throw (by simp)

theorem StaysInside.moreTerms_succ (calls : StaysInside tokens fuel) (left : Expression) :
    Stays tokens (Descent.moreTerms tokens (fuel + 1) left) := by
  rw [Descent.moreTerms]
  refine (stays_consume _).bind fun plus => ?_
  split
  · exact calls.factor.bind fun _ => calls.moreTerms _
  · refine (stays_consume _).bind fun minus => ?_
    split
    · exact calls.factor.bind fun _ => calls.moreTerms _
    · exact stays_pure _

theorem StaysInside.succ (calls : StaysInside tokens fuel) : StaysInside tokens (fuel + 1) where
  term := by
    rw [Descent.term]
    exact calls.factor.bind calls.moreTerms
  moreTerms := calls.moreTerms_succ
  factor := by
    rw [Descent.factor]
    exact calls.unary.bind calls.moreFactors
  moreFactors := by
    intro left
    rw [Descent.moreFactors]
    refine (stays_consume _).bind fun star => ?_
    split
    · exact calls.unary.bind fun _ => calls.moreFactors _
    · exact stays_pure _
  unary := by
    rw [Descent.unary]
    refine (stays_consume _).bind fun minus => ?_
    split
    · exact calls.unary.bind fun _ => stays_pure _
    · exact calls.primary
  primary := calls.primary_succ
  arguments := by
    rw [Descent.arguments]
    refine (stays_consume _).bind fun closing => ?_
    split
    · exact stays_pure _
    · exact calls.moreArguments []
  moreArguments := by
    intro earlier
    rw [Descent.moreArguments]
    refine calls.term.bind fun e => (stays_consume _).bind fun comma => ?_
    split
    · exact calls.moreArguments _
    · exact (stays_expect _).bind fun _ => stays_pure _

theorem staysInside (tokens : Array Token) (fuel : Nat) : StaysInside tokens fuel := by
  induction fuel with
  | zero => exact staysInside_zero
  | succ fuel ih => exact ih.succ

/-- **No access is out of range.**  This holds of all tokens, as long as there is one. -/
theorem stays_whole (tokens : Array Token) (fuel : Nat) : Stays tokens (whole tokens fuel) := by
  rw [whole]
  exact (staysInside tokens fuel).term.bind fun _ => (stays_expect _).bind fun _ => stays_pure _

end Descent

end ShaderDag
