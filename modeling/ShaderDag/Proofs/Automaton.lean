import ShaderDag.Proofs.Lists
import ShaderDag.Text.Parser

/-!
# Reading tokens with a stack

Recursive descent keeps what is unfinished in the calls that are under way.  Here it stands on a stack
instead: an automaton takes the tokens one by one and stops at the first that cannot follow.  What it does
on the tokens so far does not depend on those to come, so proofs about a text from left to right are about
the automaton.

* `Frame` — an unfinished part of the expression;
* `Mode` — whether an operand, or what follows one, is expected next;
* `ParseState.step`, `ParseState.run` — one token, and any number of them;
* `ParseState.read` — the expression of a whole list of tokens;
* `ParseState.step_error`, `ParseState.exists_of_run_error` — where the automaton stops.
-/

namespace ShaderDag

/-- A part of the expression that waits for an operand or for a closing parenthesis.  A call holds its
finished arguments, the last one first. -/
inductive Frame where
  | sum (left : Expression) (op : Operator) (offset : Nat)
  | product (left : Expression) (offset : Nat)
  | negate (offset : Nat)
  | group
  | call (callee : String) (offset : Nat) (args : List Expression)
deriving Repr

/-- What the automaton has just read: something that needs an operand next, the opening parenthesis of a
call (which may close at once), a name that may turn out to be a call, a finished product, or the end of
the input behind a complete expression. -/
inductive Mode where
  | operand
  | arguments
  | named (text : String) (offset : Nat)
  | finished (value : Expression)
  | complete (value : Expression)
deriving Repr

/-- What the automaton has read, and the parts that are unfinished, innermost first. -/
abbrev ParseState := Mode × List Frame

namespace Frame

/-- A finished operand closes the negations in front of it and then the product that waits for it. -/
def closeOperand (value : Expression) : List Frame → Expression × List Frame
  | .negate offset :: frames => closeOperand (.negate value offset) frames
  | .product left offset :: frames => (.binary .mul left value offset, frames)
  | frames => (value, frames)

/-- A finished product closes the sum that waits for it. -/
def closeProduct (value : Expression) : List Frame → Expression × List Frame
  | .sum left op offset :: frames => (.binary op left value offset, frames)
  | frames => (value, frames)

/-- The lexeme that has to close the innermost open part. -/
def closer : List Frame → Lexeme
  | .group :: _ => .closeParen
  | .call _ _ _ :: _ => .closeParen
  | _ :: frames => closer frames
  | [] => .endOfInput

end Frame

namespace ParseState

/-- The state in front of the first token. -/
def start : ParseState := (.operand, [])

/-- The state after a finished operand. -/
def afterOperand (value : Expression) (frames : List Frame) : ParseState :=
  let (value, frames) := Frame.closeOperand value frames
  (.finished value, frames)

/-- A token where an operand is expected. -/
def readOperand (t : Token) (frames : List Frame) : Except SyntaxError ParseState :=
  match t.lexeme with
  | .numeral value => .ok (afterOperand (.numeral value) frames)
  | .name text => .ok (.named text t.offset, frames)
  | .openParen => .ok (.operand, .group :: frames)
  | .minus => .ok (.operand, .negate t.offset :: frames)
  | found => .error ⟨t.offset, .unexpected found⟩

/-- A token behind a finished product. -/
def readFollower (t : Token) (value : Expression) (frames : List Frame) :
    Except SyntaxError ParseState :=
  let (sum, outer) := Frame.closeProduct value frames
  match t.lexeme, outer with
  | .star, _ => .ok (.operand, .product value t.offset :: frames)
  | .plus, _ => .ok (.operand, .sum sum .add t.offset :: outer)
  | .minus, _ => .ok (.operand, .sum sum .sub t.offset :: outer)
  | .comma, .call callee offset args :: rest =>
    .ok (.operand, .call callee offset (sum :: args) :: rest)
  | .closeParen, .call callee offset args :: rest =>
    .ok (afterOperand (.call callee (sum :: args).reverse offset) rest)
  | .closeParen, .group :: rest => .ok (afterOperand sum rest)
  | .endOfInput, [] => .ok (.complete sum, [])
  | found, _ => .error ⟨t.offset, .expected (Frame.closer outer) found⟩

/-- One token.  Nothing follows the end of the input. -/
def step (state : ParseState) (t : Token) : Except SyntaxError ParseState :=
  match state with
  | (.operand, frames) => readOperand t frames
  | (.arguments, frames) =>
    match t.lexeme, frames with
    | .closeParen, .call callee offset _ :: rest =>
      .ok (afterOperand (.call callee [] offset) rest)
    | _, _ => readOperand t frames
  | (.named text offset, frames) =>
    if t.lexeme = .openParen then .ok (.arguments, .call text offset [] :: frames)
    else
      let (value, frames) := Frame.closeOperand (.name text offset) frames
      readFollower t value frames
  | (.finished value, frames) => readFollower t value frames
  | (.complete _, _) => .error ⟨t.offset, .unexpected t.lexeme⟩

end ParseState

/-! ### Runs -/

namespace ParseState

@[simp] theorem step_operand (frames : List Frame) (t : Token) :
    step (.operand, frames) t = readOperand t frames := rfl

/-- Behind the opening parenthesis of a call an argument is read like any operand. -/
theorem step_arguments {t : Token} (other : t.lexeme ≠ .closeParen) (frames : List Frame) :
    step (.arguments, frames) t = step (.operand, frames) t := by
  simp only [step]
  split
  · contradiction
  · rfl

@[simp] theorem step_finished (value : Expression) (frames : List Frame) (t : Token) :
    step (.finished value, frames) t = readFollower t value frames := rfl

/-- The state after some tokens. -/
def run (s : ParseState) (ts : List Token) : Except SyntaxError ParseState := ts.foldlM step s

theorem run_cons (s : ParseState) (t : Token) (ts : List Token) :
    s.run (t :: ts) = s.step t >>= fun s' => s'.run ts := rfl

theorem run_append (s : ParseState) (ts us : List Token) :
    s.run (ts ++ us) = s.run ts >>= fun s' => s'.run us := List.foldlM_append

@[simp] theorem run_singleton (s : ParseState) (t : Token) : s.run [t] = s.step t := by
  rw [run_cons]
  exact bind_pure (s.step t)

theorem readOperand_error {t : Token} {frames : List Frame} {f : SyntaxError}
    (h : readOperand t frames = .error f) : f.offset = t.offset := by
  unfold readOperand at h
  split at h <;> cases h
  rfl

theorem readFollower_error {t : Token} {value : Expression} {frames : List Frame} {f : SyntaxError}
    (h : readFollower t value frames = .error f) : f.offset = t.offset := by
  unfold readFollower at h
  dsimp only at h
  split at h <;> cases h
  rfl

/-- A token that cannot follow is where the problem is reported. -/
theorem step_error {s : ParseState} {t : Token} {f : SyntaxError} (h : s.step t = .error f) :
    f.offset = t.offset := by
  unfold step at h
  split at h
  · exact readOperand_error h
  · split at h
    · cases h
    · exact readOperand_error h
  · split at h
    · cases h
    · exact readFollower_error h
  · exact readFollower_error h
  · cases h
    rfl

/-- The expression of tokens that are closed by the end of the input. -/
def read (ts : List Token) : Except SyntaxError Expression := do
  match (← start.run ts).1 with
  | .complete value => return value
  | _ => throw ⟨0, .unexpected .endOfInput⟩

theorem read_of_complete {ts : List Token} {e : Expression} {frames : List Frame}
    (came : start.run ts = .ok (.complete e, frames)) : read ts = .ok e := by
  rw [read, came]
  rfl

theorem read_of_error {ts : List Token} {f : SyntaxError} (stopped : start.run ts = .error f) :
    read ts = .error f := by
  rw [read, stopped]
  rfl

/-- A run that fails has come as far as one of its tokens, and that token fails. -/
theorem exists_of_run_error {s : ParseState} {ts : List Token} {f : SyntaxError}
    (h : s.run ts = .error f) :
    ∃ before t after s', ts = before ++ t :: after ∧ s.run before = .ok s' ∧ s'.step t = .error f := by
  induction ts generalizing s with
  | nil => cases h
  | cons t ts ih =>
    rw [run_cons] at h
    cases first : s.step t with
    | error g =>
      rw [first] at h
      cases h
      exact ⟨[], t, ts, s, rfl, rfl, first⟩
    | ok s₁ =>
      rw [first] at h
      obtain ⟨before, u, after, s', rfl, ran, failed⟩ := ih h
      refine ⟨t :: before, u, after, s', rfl, ?_, failed⟩
      rw [run_cons, first]
      exact ran

end ParseState

end ShaderDag
