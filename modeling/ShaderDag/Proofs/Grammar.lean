import ShaderDag.Proofs.Automaton

/-!
# The grammar of expression text

The automaton reads tokens one by one and keeps what is unfinished on a stack.  Here the language that it
accepts is written down as a grammar, with the expression that each derivation determines.  A stack stands
for the tokens that have been read for it; every step keeps this reading, so whatever is accepted has a
derivation.  In the other direction a derivation tells the automaton's run, frame by frame.

* `Derives` — the grammar: sums of products of operands, grouped to the left;
* `Frame.Reads`, `ParseState.Reads` — the tokens that a stack and a state stand for;
* `ParseState.Reads.step`, `ParseState.Reads.run` — one token, and any number of them, keep the reading;
* `Derives.runs` — the run over the tokens of a derivation;
* `ParseState.read_closed_iff` — the automaton accepts exactly the grammar.
-/

namespace ShaderDag

/-! ### Derivations -/

/-- The operator between two products of a sum. -/
def Lexeme.additive? : Lexeme → Option Operator
  | .plus => some .add
  | .minus => some .sub
  | _ => none

/-- The nonterminals of the grammar, each with the type of what its derivations determine. -/
inductive Nonterminal : Type → Type where
  | term : Nonterminal Expression
  | factor : Nonterminal Expression
  | unary : Nonterminal Expression
  | primary : Nonterminal Expression
  | arguments : Nonterminal (List Expression)

/-- `Derives n ts x`: the tokens `ts` derive from `n`, and the derivation determines `x`.  A row is a
shorter row with one more member behind it, so rows group to the left. -/
inductive Derives : {α : Type} → Nonterminal α → List Token → α → Prop where
  | ofFactor {ts : List Token} {e : Expression} (only : Derives .factor ts e) : Derives .term ts e
  | sum {ts us : List Token} {l r : Expression} {t : Token} {op : Operator} (left : Derives .term ts l)
      (sign : t.lexeme.additive? = some op) (right : Derives .factor us r) :
      Derives .term (ts ++ t :: us) (.binary op l r t.offset)
  | ofUnary {ts : List Token} {e : Expression} (only : Derives .unary ts e) : Derives .factor ts e
  | product {ts us : List Token} {l r : Expression} {offset : Nat} (left : Derives .factor ts l)
      (right : Derives .unary us r) :
      Derives .factor (ts ++ ⟨.star, offset⟩ :: us) (.binary .mul l r offset)
  | ofPrimary {ts : List Token} {e : Expression} (only : Derives .primary ts e) : Derives .unary ts e
  | negate {ts : List Token} {e : Expression} {offset : Nat} (operand : Derives .unary ts e) :
      Derives .unary (⟨.minus, offset⟩ :: ts) (.negate e offset)
  | numeral (value : Numeral) (offset : Nat) : Derives .primary [⟨.numeral value, offset⟩] (.numeral value)
  | name (text : String) (offset : Nat) : Derives .primary [⟨.name text, offset⟩] (.name text offset)
  | emptyCall (text : String) (offset o c : Nat) :
      Derives .primary [⟨.name text, offset⟩, ⟨.openParen, o⟩, ⟨.closeParen, c⟩] (.call text [] offset)
  | call {text : String} {offset o c : Nat} {ts : List Token} {es : List Expression}
      (args : Derives .arguments ts es) :
      Derives .primary (⟨.name text, offset⟩ :: ⟨.openParen, o⟩ :: (ts ++ [⟨.closeParen, c⟩]))
        (.call text es offset)
  | group {o c : Nat} {ts : List Token} {e : Expression} (inner : Derives .term ts e) :
      Derives .primary (⟨.openParen, o⟩ :: (ts ++ [⟨.closeParen, c⟩])) e
  | lone {ts : List Token} {e : Expression} (only : Derives .term ts e) : Derives .arguments ts [e]
  | more {ts us : List Token} {es : List Expression} {e : Expression} {o : Nat}
      (earlier : Derives .arguments ts es) (last : Derives .term us e) :
      Derives .arguments (ts ++ ⟨.comma, o⟩ :: us) (es ++ [e])

/-- No derivation starts with a closing parenthesis. -/
theorem Derives.exists_head {α : Type} {n : Nonterminal α} {ts : List Token} {x : α}
    (h : Derives n ts x) : ∃ t rest, ts = t :: rest ∧ t.lexeme ≠ .closeParen := by
  induction h with
  | ofFactor _ ih | ofUnary _ ih | ofPrimary _ ih | lone _ ih => exact ih
  | sum _ _ _ ih _ | product _ _ ih _ | more _ _ ih _ =>
    obtain ⟨t, rest, rfl, other⟩ := ih
    exact ⟨t, _, rfl, other⟩
  | negate _ _ | numeral | name | emptyCall | call _ _ | group _ _ => exact ⟨_, _, rfl, nofun⟩

/-! ### The tokens that a stack stands for -/

namespace Frame

/-- What the innermost unfinished part waits for. -/
def awaited : List Frame → Nonterminal Expression
  | .sum _ _ _ :: _ => .factor
  | .product _ _ :: _ => .unary
  | .negate _ :: _ => .unary
  | _ => .term

/-- The tokens that were read for some unfinished parts. -/
inductive Reads : List Frame → List Token → Prop where
  | nil : Reads [] []
  | sum {frames : List Frame} {ts us : List Token} {left : Expression} {t : Token} {op : Operator}
      (outer : Reads frames ts) (place : awaited frames = .term) (derived : Derives .term us left)
      (sign : t.lexeme.additive? = some op) :
      Reads (.sum left op t.offset :: frames) (ts ++ us ++ [t])
  | product {frames : List Frame} {ts us : List Token} {left : Expression} {offset : Nat}
      (outer : Reads frames ts) (place : awaited frames ≠ .unary) (derived : Derives .factor us left) :
      Reads (.product left offset :: frames) (ts ++ us ++ [⟨.star, offset⟩])
  | negate {frames : List Frame} {ts : List Token} {offset : Nat} (outer : Reads frames ts) :
      Reads (.negate offset :: frames) (ts ++ [⟨.minus, offset⟩])
  | group {frames : List Frame} {ts : List Token} {offset : Nat} (outer : Reads frames ts) :
      Reads (.group :: frames) (ts ++ [⟨.openParen, offset⟩])
  | call {frames : List Frame} {ts : List Token} {text : String} {offset o : Nat}
      (outer : Reads frames ts) :
      Reads (.call text offset [] :: frames) (ts ++ [⟨.name text, offset⟩, ⟨.openParen, o⟩])
  | argument {frames : List Frame} {ts us : List Token} {text : String} {offset o c : Nat}
      {args : List Expression} (outer : Reads frames ts) (derived : Derives .arguments us args.reverse) :
      Reads (.call text offset args :: frames)
        (ts ++ ⟨.name text, offset⟩ :: ⟨.openParen, o⟩ :: us ++ [⟨.comma, c⟩])

/-- A stack and a value behind it, with the tokens that were read for both. -/
def ReadsWith (n : Nonterminal Expression) (frames : List Frame) (value : Expression)
    (ts : List Token) : Prop :=
  ∃ before own, ts = before ++ own ∧ Reads frames before ∧ Derives n own value

/-- A finished operand becomes a product with what waits for it. -/
theorem ReadsWith.closeOperand {frames : List Frame} {value : Expression} {ts : List Token}
    (h : ReadsWith .unary frames value ts) :
    ReadsWith .factor (Frame.closeOperand value frames).2 (Frame.closeOperand value frames).1 ts ∧
      awaited (Frame.closeOperand value frames).2 ≠ .unary := by
  obtain ⟨before, own, rfl, outer, derived⟩ := h
  -- the induction follows the negations in front of the operand
  induction outer generalizing own value with
  | negate outer ih =>
    rw [List.append_assoc]
    exact ih _ (.negate derived)
  | @product frames ts us left offset outer place leftDerived =>
    refine ⟨⟨ts, us ++ ⟨.star, offset⟩ :: own, ?_, outer, .product leftDerived derived⟩, place⟩
    simp
  | nil => exact ⟨⟨_, _, rfl, .nil, .ofUnary derived⟩, nofun⟩
  | sum outer place leftDerived sign =>
    exact ⟨⟨_, _, rfl, .sum outer place leftDerived sign, .ofUnary derived⟩, nofun⟩
  | group outer => exact ⟨⟨_, _, rfl, .group outer, .ofUnary derived⟩, nofun⟩
  | call outer => exact ⟨⟨_, _, rfl, .call outer, .ofUnary derived⟩, nofun⟩
  | argument outer args => exact ⟨⟨_, _, rfl, .argument outer args, .ofUnary derived⟩, nofun⟩

/-- A finished product becomes a sum with what waits for it. -/
theorem ReadsWith.closeProduct {frames : List Frame} {value : Expression} {ts : List Token}
    (h : ReadsWith .factor frames value ts) (place : awaited frames ≠ .unary) :
    ReadsWith .term (Frame.closeProduct value frames).2 (Frame.closeProduct value frames).1 ts ∧
      awaited (Frame.closeProduct value frames).2 = .term := by
  obtain ⟨before, own, rfl, outer, derived⟩ := h
  cases outer with
  | @sum frames ts us left t op outer top leftDerived sign =>
    refine ⟨⟨ts, us ++ t :: own, ?_, outer, .sum leftDerived sign derived⟩, top⟩
    simp
  | product | negate => exact absurd rfl place
  | nil => exact ⟨⟨_, _, rfl, .nil, .ofFactor derived⟩, rfl⟩
  | group outer => exact ⟨⟨_, _, rfl, .group outer, .ofFactor derived⟩, rfl⟩
  | call outer => exact ⟨⟨_, _, rfl, .call outer, .ofFactor derived⟩, rfl⟩
  | argument outer args => exact ⟨⟨_, _, rfl, .argument outer args, .ofFactor derived⟩, rfl⟩

/-- The arguments of an open call, with one more that has just been read. -/
theorem Reads.exists_arguments {frames : List Frame} {text : String} {offset : Nat}
    {args : List Expression} {last : Expression} {ts own : List Token}
    (h : Reads (.call text offset args :: frames) ts) (derived : Derives .term own last) :
    ∃ before o us, ts ++ own = before ++ ⟨.name text, offset⟩ :: ⟨.openParen, o⟩ :: us ∧
      Reads frames before ∧ Derives .arguments us (last :: args).reverse := by
  cases h with
  | @call _ before _ _ o outer => exact ⟨before, o, own, by simp, outer, .lone derived⟩
  | @argument _ before us _ _ o c _ outer earlier =>
    refine ⟨before, o, us ++ ⟨.comma, c⟩ :: own, by simp, outer, ?_⟩
    rw [List.reverse_cons]
    exact .more earlier derived

end Frame

/-! ### Whatever is accepted has a derivation -/

namespace ParseState

open ShaderDag.Frame (ReadsWith awaited)

/-- The tokens that were read up to a state. -/
inductive Reads : ParseState → List Token → Prop where
  | operand {frames : List Frame} {ts : List Token} (outer : Frame.Reads frames ts) :
      Reads (.operand, frames) ts
  | arguments {frames : List Frame} {ts : List Token} {text : String} {offset o : Nat}
      (outer : Frame.Reads frames ts) :
      Reads (.arguments, .call text offset [] :: frames)
        (ts ++ [⟨.name text, offset⟩, ⟨.openParen, o⟩])
  | named {frames : List Frame} {ts : List Token} {text : String} {offset : Nat}
      (outer : Frame.Reads frames ts) :
      Reads (.named text offset, frames) (ts ++ [⟨.name text, offset⟩])
  | finished {frames : List Frame} {ts : List Token} {value : Expression}
      (read : ReadsWith .factor frames value ts) (place : awaited frames ≠ .unary) :
      Reads (.finished value, frames) ts
  | complete {ts : List Token} {value : Expression} {offset : Nat} (derived : Derives .term ts value) :
      Reads (.complete value, []) (ts ++ [⟨.endOfInput, offset⟩])

theorem reads_afterOperand {frames : List Frame} {value : Expression} {ts : List Token}
    (h : ReadsWith .unary frames value ts) : Reads (afterOperand value frames) ts :=
  .finished h.closeOperand.1 h.closeOperand.2

theorem reads_primary {frames : List Frame} {value : Expression} {ts own : List Token}
    (outer : Frame.Reads frames ts) (derived : Derives .primary own value) :
    Reads (afterOperand value frames) (ts ++ own) :=
  reads_afterOperand ⟨ts, own, rfl, outer, .ofPrimary derived⟩

theorem readOperand_reads {frames : List Frame} {ts : List Token} {t : Token} {s : ParseState}
    (outer : Frame.Reads frames ts) (h : readOperand t frames = .ok s) : Reads s (ts ++ [t]) := by
  obtain ⟨lexeme, offset⟩ := t
  cases lexeme with
  | numeral value =>
    cases h
    exact reads_primary outer (.numeral value offset)
  | name text =>
    cases h
    exact .named outer
  | openParen =>
    cases h
    exact .operand (.group outer)
  | minus =>
    cases h
    exact .operand (.negate outer)
  | _ => cases h

/-- A token behind a finished product: the product becomes a sum, and the token goes on with it or closes
what is open. -/
theorem readFollower_reads {frames : List Frame} {value : Expression} {ts : List Token} {t : Token}
    {s : ParseState} (read : ReadsWith .factor frames value ts) (place : awaited frames ≠ .unary)
    (h : readFollower t value frames = .ok s) : Reads s (ts ++ [t]) := by
  obtain ⟨sumRead, top⟩ := read.closeProduct place
  obtain ⟨lexeme, offset⟩ := t
  unfold readFollower at h
  revert h sumRead top
  generalize Frame.closeProduct value frames = closed
  obtain ⟨sum, outer⟩ := closed
  intro sumRead top h
  obtain ⟨before, own, rfl, outerRead, derived⟩ := sumRead
  dsimp only at outerRead derived top h
  split at h
  · -- `*` waits for another operand of the product
    obtain ⟨before', own', same, factorRead, factorDerived⟩ := read
    cases h
    rw [same]
    exact .operand (.product factorRead place factorDerived)
  · cases h
    exact .operand (.sum (t := ⟨.plus, offset⟩) outerRead top derived rfl)
  · cases h
    exact .operand (.sum (t := ⟨.minus, offset⟩) outerRead top derived rfl)
  · -- a comma ends an argument of a call
    cases h
    obtain ⟨start, o, us, same, callRead, args⟩ := outerRead.exists_arguments derived
    rw [same]
    exact .operand (.argument callRead args)
  · cases h
    obtain ⟨start, o, us, same, callRead, args⟩ := outerRead.exists_arguments derived
    rw [same, List.append_assoc]
    exact reads_primary callRead (.call args)
  · cases h
    cases outerRead with
    | @group _ start o groupRead =>
      rw [List.append_assoc, List.append_assoc]
      exact reads_primary groupRead (.group derived)
  · cases h
    cases outerRead
    exact .complete derived
  · cases h

/-- **One token keeps the reading.** -/
theorem Reads.step {s s' : ParseState} {ts : List Token} {t : Token} (read : Reads s ts)
    (h : s.step t = .ok s') : Reads s' (ts ++ [t]) := by
  cases read with
  | operand outer => exact readOperand_reads outer h
  | @arguments frames before text offset o outer =>
    unfold ParseState.step at h
    dsimp only at h
    split at h
    · next closing same =>
      cases h
      cases same
      obtain ⟨lexeme, c⟩ := t
      cases closing
      rw [List.append_assoc]
      exact reads_primary outer (.emptyCall text offset o c)
    · exact readOperand_reads (.call outer) h
  | @named frames before text offset outer =>
    unfold ParseState.step at h
    dsimp only at h
    split at h
    · next opening =>
      cases h
      obtain ⟨lexeme, o⟩ := t
      cases opening
      rw [List.append_assoc]
      exact .arguments outer
    · obtain ⟨closed, place⟩ := ReadsWith.closeOperand
        ⟨before, _, rfl, outer, .ofPrimary (.name text offset)⟩
      exact readFollower_reads closed place h
  | finished read place => exact readFollower_reads read place h
  | complete derived => cases h

/-- **Any number of tokens keep the reading.** -/
theorem Reads.run {s s' : ParseState} {before ts : List Token} (read : Reads s before)
    (h : s.run ts = .ok s') : Reads s' (before ++ ts) := by
  induction ts generalizing s before with
  | nil =>
    cases h
    rwa [List.append_nil]
  | cons t ts ih =>
    obtain ⟨s₁, first, rest⟩ := except_bind_eq_ok_iff.1 h
    rw [List.append_cons]
    exact ih (read.step first) rest

end ParseState

/-! ### Every derivation is accepted -/

namespace ParseState

open ShaderDag.Frame (awaited)

/-- A state that treats every token but an opening parenthesis like a finished product does.  A name that
has just been read is one, although it might still become a call. -/
def ActsAs (s : ParseState) (value : Expression) (frames : List Frame) : Prop :=
  ∀ t : Token, t.lexeme ≠ .openParen → s.step t = readFollower t value frames

theorem actsAs_finished (value : Expression) (frames : List Frame) :
    ActsAs (.finished value, frames) value frames := fun _ _ => rfl

theorem actsAs_named (text : String) (offset : Nat) (frames : List Frame) :
    ActsAs (.named text offset, frames) (Frame.closeOperand (.name text offset) frames).1
      (Frame.closeOperand (.name text offset) frames).2 := by
  intro t other
  simp only [step, if_neg other]

theorem closeOperand_of_place {frames : List Frame} (value : Expression)
    (place : awaited frames ≠ .unary) : Frame.closeOperand value frames = (value, frames) := by
  cases frames with
  | nil => rfl
  | cons frame frames =>
    cases frame with
    | product | negate => exact absurd rfl place
    | sum | group | call => rfl

theorem closeProduct_of_place {frames : List Frame} (value : Expression)
    (place : awaited frames = .term) : Frame.closeProduct value frames = (value, frames) := by
  cases frames with
  | nil => rfl
  | cons frame frames =>
    cases frame with
    | sum | product | negate => cases place
    | group | call => rfl

/-- What the automaton does over the tokens of a derivation, on a stack that waits for the nonterminal:
it ends in a state that acts as the finished value. -/
def Runs : {α : Type} → Nonterminal α → List Token → α → Prop
  | _, .term, ts, e => ∀ frames, awaited frames = .term → ∃ s value inner,
      run (.operand, frames) ts = .ok s ∧ s.ActsAs value inner ∧
        Frame.closeProduct value inner = (e, frames)
  | _, .factor, ts, e => ∀ frames, awaited frames ≠ .unary → ∃ s,
      run (.operand, frames) ts = .ok s ∧ s.ActsAs e frames
  | _, .unary, ts, e => ∀ frames, ∃ s, run (.operand, frames) ts = .ok s ∧
      s.ActsAs (Frame.closeOperand e frames).1 (Frame.closeOperand e frames).2
  | _, .primary, ts, e => ∀ frames, ∃ s, run (.operand, frames) ts = .ok s ∧
      s.ActsAs (Frame.closeOperand e frames).1 (Frame.closeOperand e frames).2
  | _, .arguments, ts, es => ∀ text offset frames, ∃ s value inner earlier last,
      run (.operand, .call text offset [] :: frames) ts = .ok s ∧ s.ActsAs value inner ∧
        Frame.closeProduct value inner = (last, .call text offset earlier :: frames) ∧
        es = (last :: earlier).reverse

theorem run_arguments {α : Type} {n : Nonterminal α} {ts : List Token} {x : α} (h : Derives n ts x)
    (frames : List Frame) : run (.arguments, frames) ts = run (.operand, frames) ts := by
  obtain ⟨t, rest, rfl, other⟩ := h.exists_head
  rw [run_cons, run_cons, step_arguments other]

/-- A run that goes on behind a state that acts as a finished product. -/
theorem run_follower {s s' : ParseState} {ts us : List Token} {start : ParseState} {t : Token}
    {value : Expression} {frames : List Frame} (first : start.run ts = .ok s)
    (acts : s.ActsAs value frames) (other : t.lexeme ≠ .openParen)
    (next : readFollower t value frames = .ok s') : start.run (ts ++ t :: us) = s'.run us := by
  rw [run_append, first]
  show s.run (t :: us) = _
  rw [run_cons, acts t other, next]
  rfl

end ParseState

open ParseState in
/-- **Every derivation is a run.** -/
theorem Derives.runs {α : Type} {n : Nonterminal α} {ts : List Token} {x : α} (h : Derives n ts x) :
    Runs n ts x := by
  induction h with
  | ofFactor _ ih =>
    intro frames place
    obtain ⟨s, ran, acts⟩ := ih frames (by rw [place]; nofun)
    exact ⟨s, _, _, ran, acts, closeProduct_of_place _ place⟩
  | @sum ts us l r t op _ sign _ ihLeft ihRight =>
    intro frames place
    obtain ⟨s, value, inner, ran, acts, closed⟩ := ihLeft frames place
    obtain ⟨s', ran', acts'⟩ := ihRight (.sum l op t.offset :: frames) nofun
    refine ⟨s', r, .sum l op t.offset :: frames, ?_, acts', rfl⟩
    obtain ⟨lexeme, offset⟩ := t
    have next : readFollower ⟨lexeme, offset⟩ value inner =
        .ok (.operand, .sum l op offset :: frames) := by
      cases lexeme <;> cases sign <;> simp [readFollower, closed]
    rw [run_follower ran acts (by rintro rfl; cases sign) next, ran']
  | ofUnary _ ih =>
    intro frames place
    obtain ⟨s, ran, acts⟩ := ih frames
    rw [closeOperand_of_place _ place] at acts
    exact ⟨s, ran, acts⟩
  | @product ts us l r offset _ _ ihLeft ihRight =>
    intro frames place
    obtain ⟨s, ran, acts⟩ := ihLeft frames place
    obtain ⟨s', ran', acts'⟩ := ihRight (.product l offset :: frames)
    refine ⟨s', ?_, acts'⟩
    have next : readFollower ⟨.star, offset⟩ l frames = .ok (.operand, .product l offset :: frames) := rfl
    rw [run_follower ran acts (by nofun) next, ran']
  | ofPrimary _ ih => exact ih
  | @negate ts e offset _ ih =>
    intro frames
    obtain ⟨s, ran, acts⟩ := ih (.negate offset :: frames)
    exact ⟨s, ran, acts⟩
  | numeral value offset => exact fun frames => ⟨_, rfl, actsAs_finished _ _⟩
  | name text offset => exact fun frames => ⟨_, rfl, actsAs_named text offset frames⟩
  | emptyCall text offset o c => exact fun frames => ⟨_, rfl, actsAs_finished _ _⟩
  | @call text offset o c ts es args ih =>
    intro frames
    obtain ⟨s, value, inner, earlier, last, ran, acts, closed, rfl⟩ := ih text offset frames
    refine ⟨_, ?_, actsAs_finished _ _⟩
    show run (.arguments, .call text offset [] :: frames) (ts ++ [⟨.closeParen, c⟩]) = _
    have next : readFollower ⟨.closeParen, c⟩ value inner =
        .ok (afterOperand (.call text (last :: earlier).reverse offset) frames) := by
      simp [readFollower, closed]
    rw [run_append, run_arguments args, ← run_append, run_follower ran acts (by nofun) next]
    rfl
  | @group o c ts e _ ih =>
    intro frames
    obtain ⟨s, value, inner, ran, acts, closed⟩ := ih (.group :: frames) rfl
    refine ⟨_, ?_, actsAs_finished _ _⟩
    show run (.operand, .group :: frames) (ts ++ [⟨.closeParen, c⟩]) = _
    have next : readFollower ⟨.closeParen, c⟩ value inner = .ok (afterOperand e frames) := by
      simp [readFollower, closed]
    rw [run_follower ran acts (by nofun) next]
    rfl
  | lone _ ih =>
    intro text offset frames
    obtain ⟨s, value, inner, ran, acts, closed⟩ := ih (.call text offset [] :: frames) rfl
    exact ⟨s, value, inner, [], _, ran, acts, closed, rfl⟩
  | @more ts us es e o _ _ ihEarlier ihLast =>
    intro text offset frames
    obtain ⟨s, value, inner, earlier, last, ran, acts, closed, rfl⟩ := ihEarlier text offset frames
    obtain ⟨s', value', inner', ran', acts', closed'⟩ :=
      ihLast (.call text offset (last :: earlier) :: frames) rfl
    refine ⟨s', value', inner', last :: earlier, e, ?_, acts', closed', by simp⟩
    have next : readFollower ⟨.comma, o⟩ value inner =
        .ok (.operand, .call text offset (last :: earlier) :: frames) := by
      simp [readFollower, closed]
    rw [run_follower ran acts (by nofun) next, ran']

/-! ### The language of the automaton -/

namespace ParseState

theorem readFollower_end {offset : Nat} {value : Expression} {frames : List Frame} {s : ParseState}
    (h : readFollower ⟨.endOfInput, offset⟩ value frames = .ok s) : ∃ e, s = (.complete e, []) := by
  unfold readFollower at h
  dsimp only at h
  generalize (Frame.closeProduct value frames).2 = outer at h
  cases outer with
  | nil =>
    cases h
    exact ⟨_, rfl⟩
  | cons frame outer => cases h

/-- The end of the input is accepted behind a complete expression only. -/
theorem step_end {s s' : ParseState} {offset : Nat} (h : s.step ⟨.endOfInput, offset⟩ = .ok s') :
    ∃ e, s' = (.complete e, []) := by
  obtain ⟨mode, frames⟩ := s
  cases mode with
  | operand => cases h
  | arguments => cases h
  | named text o =>
    rw [actsAs_named text o frames _ (by nofun)] at h
    exact readFollower_end h
  | finished value => exact readFollower_end h
  | complete value => cases h

theorem Reads.of_complete {frames : List Frame} {e : Expression} {ts : List Token}
    (h : Reads (.complete e, frames) ts) :
    ∃ before offset, ts = before ++ [⟨.endOfInput, offset⟩] ∧ Derives .term before e := by
  cases h with
  | complete derived => exact ⟨_, _, rfl, derived⟩

/-- Behind the end of the input the automaton has the expression of the tokens before it. -/
theorem run_closed_iff {ts : List Token} {offset : Nat} {s : ParseState} :
    start.run (ts ++ [⟨.endOfInput, offset⟩]) = .ok s ↔
      ∃ e, Derives .term ts e ∧ s = (.complete e, []) := by
  constructor
  · intro h
    rw [run_append] at h
    obtain ⟨s₁, first, last⟩ := except_bind_eq_ok_iff.1 h
    rw [run_singleton] at last
    have read : Reads s₁ ts := Reads.run (.operand .nil) first
    obtain ⟨e, rfl⟩ := step_end last
    obtain ⟨before, _, same, derived⟩ := (read.step last).of_complete
    rw [List.append_inj_left' same rfl]
    exact ⟨e, derived, rfl⟩
  · rintro ⟨e, derived, rfl⟩
    obtain ⟨s, value, inner, ran, acts, closed⟩ := derived.runs [] rfl
    have next : readFollower ⟨.endOfInput, offset⟩ value inner = .ok (.complete e, []) := by
      simp [readFollower, closed]
    exact run_follower ran acts (by nofun) next

/-- An expression is read exactly if the tokens before the end derive it. -/
theorem read_closed_iff {ts : List Token} {offset : Nat} {e : Expression} :
    read (ts ++ [⟨.endOfInput, offset⟩]) = .ok e ↔ Derives .term ts e := by
  constructor
  · intro h
    obtain ⟨s, ran, result⟩ := except_bind_eq_ok_iff.1 h
    obtain ⟨e', derived, rfl⟩ := run_closed_iff.1 ran
    cases result
    exact derived
  · intro derived
    exact read_of_complete (run_closed_iff.2 ⟨e, derived, rfl⟩)

/-- Tokens that are refused are refused at one of them, in the state that those before it lead to. -/
theorem exists_of_read_error {ts : List Token} {offset : Nat} {f : SyntaxError}
    (h : read (ts ++ [⟨.endOfInput, offset⟩]) = .error f) :
    ∃ before t after s, ts ++ [⟨.endOfInput, offset⟩] = before ++ t :: after ∧
      start.run before = .ok s ∧ s.step t = .error f := by
  cases ran : start.run (ts ++ [⟨.endOfInput, offset⟩]) with
  | ok s =>
    obtain ⟨e, -, rfl⟩ := run_closed_iff.1 ran
    rw [read_of_complete ran] at h
    cases h
  | error g =>
    rw [read_of_error ran] at h
    cases h
    exact exists_of_run_error ran

end ParseState

/-- No derivation reaches the end of the input. -/
theorem Derives.end_not_mem {α : Type} {n : Nonterminal α} {ts : List Token} {x : α} (h : Derives n ts x) :
    ∀ t ∈ ts, t.lexeme ≠ .endOfInput := by
  induction h with
  | ofFactor _ ih | ofUnary _ ih | ofPrimary _ ih | lone _ ih => exact ih
  | sum _ sign _ left right =>
    refine List.forall_mem_append.2 ⟨left, List.forall_mem_cons.2 ⟨?_, right⟩⟩
    intro same
    rw [same] at sign
    cases sign
  | product _ _ left right | more _ _ left right =>
    exact List.forall_mem_append.2 ⟨left, List.forall_mem_cons.2 ⟨nofun, right⟩⟩
  | negate _ ih => exact List.forall_mem_cons.2 ⟨nofun, ih⟩
  | numeral | name | emptyCall => simp
  | call _ ih | group _ ih => simpa [or_imp, forall_and] using ih

end ShaderDag
