import ShaderDag.Proofs.ByteScan
import ShaderDag.Proofs.Descent
import ShaderDag.Proofs.Glossary

/-!
# Names that can be declared can be read

A check of characters tells which names may be declared, and the lexer tells what expression text is read as
a name.  They agree on every text, up to names that look built in.  So whatever a document declares can be
referred to, and parentheses around the name change nothing.

* `isIdentifier_iff_tokenize` — a text has the shape of a name if it is one token, which is that name;
* `checkIdentifier_eq_ok_iff` — the check of declared names, as a condition on the text;
* `inParentheses`, `parse_inParentheses` — a name in any number of parentheses;
* `Document.declared_of_buildClauses` — what is built has declared all of its names;
* `declarable_iff_readable` — declarable names and readable names coincide.
-/

namespace ShaderDag

variable {name : String}

/-! ### Checked names and read names -/

theorem byteLength_of_isIdentifier (spelled : isIdentifier name = true) :
    name.toList.length = name.utf8ByteSize := by
  have narrow : ∀ c ∈ name.toList, c.toNat < 128 :=
    fun c mem => lt_of_isNamePart (forall_isNamePart spelled c mem)
  rw [← byteLength_toList, byteLength_of_lt narrow]

/-- **A text has the shape of a name exactly if the lexer reads it as that name and nothing else.**  In one
direction the lexer takes all characters of the name.  In the other one its single token is a word of the
tiling, and only names are read as names. -/
theorem isIdentifier_iff_tokenize : isIdentifier name = true ↔
    tokenize name = .ok [⟨.name name, 0⟩, ⟨.endOfInput, name.utf8ByteSize⟩] := by
  constructor
  · intro spelled
    have run := spells_name spelled 0 [] [⟨.endOfInput, 0 + name.toList.length⟩]
      closes_nil (by rw [tokenizeFrom])
    rwa [List.append_nil, Nat.zero_add, byteLength_of_isIdentifier spelled] at run
  · intro run
    obtain ⟨us, tiles, same⟩ := tokenize_ok_iff.1 run
    have only : us = [⟨.name name, 0⟩] := (List.append_inj_left' same rfl).symm
    have mem : Token.mk (.name name) 0 ∈ us := by
      rw [only]
      exact List.mem_singleton_self _
    obtain ⟨k, before, text, behind, -, -, word, -⟩ := tiles.exists_word mem
    cases word with
    | name spelled => exact spelled
    | symbol known =>
      unfold symbolLexeme? at known
      split at known <;> cases known

theorem checkIdentifier_eq_ok_iff :
    checkIdentifier name = .ok () ↔ isIdentifier name = true ∧ startsWith builtinLead name = false := by
  unfold checkIdentifier
  cases isIdentifier name with
  | false => exact ⟨nofun, nofun⟩
  | true =>
    cases startsWith builtinLead name with
    | false => exact ⟨fun _ => ⟨rfl, rfl⟩, fun _ => rfl⟩
    | true => exact ⟨nofun, nofun⟩

/-! ### Names in parentheses -/

/-- A text in some pairs of parentheses. -/
def inParentheses (depth : Nat) (text : String) : String :=
  String.ofList (List.replicate depth '(' ++ (text.toList ++ List.replicate depth ')'))

@[simp] theorem inParentheses_zero (text : String) : inParentheses 0 text = text := by
  simp [inParentheses]

@[simp] theorem inParentheses_one (text : String) : inParentheses 1 text = "(" ++ text ++ ")" := by
  refine String.toList_inj.1 ?_
  simp [inParentheses]

/-- A name in parentheses is cut into the parentheses and the name, and these derive the name. -/
theorem spells_inParentheses (spelled : isIdentifier name = true) (depth offset : Nat) :
    ∃ ts, Spells (List.replicate depth '(' ++ (name.toList ++ List.replicate depth ')')) offset ts ∧
      Derives .term ts (.name name (offset + depth)) := by
  induction depth generalizing offset with
  | zero =>
    have inner := spells_name spelled offset
    refine ⟨_, by simpa using inner, ?_⟩
    exact .ofFactor (.ofUnary (.ofPrimary (.name name offset)))
  | succ depth ih =>
    obtain ⟨ts, inner, derived⟩ := ih (offset + 1)
    have opened : symbolLexeme? '(' = some .openParen := rfl
    have written : List.replicate (depth + 1) '(' ++ (name.toList ++ List.replicate (depth + 1) ')') =
        '(' :: (List.replicate depth '(' ++ (name.toList ++ List.replicate depth ')') ++ [')']) := by
      rw [List.replicate_succ, List.replicate_succ']
      simp
    have place : offset + 1 + depth = offset + (depth + 1) := by omega
    rw [written, ← place]
    exact ⟨_, .symbol opened inner.close, .ofFactor (.ofUnary (.ofPrimary (.group derived)))⟩

/-- **A name is read back as itself**, alone or in parentheses. -/
theorem parse_inParentheses (spelled : isIdentifier name = true) (depth : Nat) :
    parse (inParentheses depth name) = .ok (.name name depth) := by
  obtain ⟨ts, spells, derived⟩ := spells_inParentheses spelled depth 0
  have run := spells [] _ closes_nil (by rw [tokenizeFrom])
  rw [List.append_nil] at run
  rw [Nat.zero_add] at derived
  rw [parse, tokenize, inParentheses, String.toList_ofList, run]
  exact parseTokens_of_derives derived

/-- A name of the scope, alone or in parentheses, compiles to what it stands for. -/
theorem Build.compile_inParentheses {scope : Scope} {h : Handle} (spelled : isIdentifier name = true)
    (found : scope.get? name = some h) (pool depth : Nat) :
    compile pool (inParentheses depth name) scope = do
      let id ← adopt pool h
      return ⟨pool, id, h.kind⟩ := by
  rw [compile, parse_inParentheses spelled]
  dsimp only
  rw [lower, found]

/-! ### Names that documents declare -/

theorem Build.ofExcept_eq_ok {α : Type} {result : Except Failure α} {a : α} {w w' : Workspace}
    (run : ofExcept result w = .ok a w') : result = .ok a := by
  cases result with
  | ok b =>
    cases run
    rfl
  | error f => cases run

/-- **What is built has declared all of its names**: each may be declared, and the scope defines it. -/
theorem Document.declared_of_buildClauses {pool : Nat} {clauses : List Clause} {scope scope' : Scope}
    {w w' : Workspace} (run : buildClauses pool scope clauses w = .ok scope' w') :
    (∀ text h, scope.get? text = some h → scope'.get? text = some h) ∧
      ∀ c ∈ clauses, checkIdentifier c.name = .ok () ∧ ∃ h, scope'.get? c.name = some h := by
  induction clauses generalizing scope w with
  | nil =>
    cases run
    exact ⟨fun _ _ found => found, nofun⟩
  | cons c more ih =>
    rw [buildClauses] at run
    obtain ⟨_, _, checked, run⟩ := bind_eq_ok run
    obtain ⟨h, _, _, run⟩ := bind_eq_ok run
    obtain ⟨scope₁, _, added, run⟩ := bind_eq_ok run
    obtain ⟨new, rfl⟩ := Build.define_eq_ok_iff.1 (Build.ofExcept_eq_ok added)
    obtain ⟨kept, declared⟩ := ih run
    refine ⟨fun text h' found => kept text h' ?_,
      List.forall_mem_cons.2 ⟨⟨Build.ofExcept_eq_ok checked, h, ?_⟩,
      declared⟩⟩
    · have other : text ≠ c.name := by
        rintro rfl
        rw [new] at found
        cases found
      rw [Scope.get?, List.lookup_cons, beq_eq_false_iff_ne.2 other]
      exact found
    · exact kept c.name h List.lookup_cons_self

/-- **Declarable names and readable names coincide.**  A name may be declared exactly if it does not start
like a built-in variable and the lexer reads it as that name, at the start of the text, and then comes to
its end.  Such a name is read back as itself in any number of parentheses, at the place where it stands.
So every name that a document has declared can be referred to in this way, and stands for what it was
declared as. -/
theorem declarable_iff_readable :
    (∀ name : String, checkIdentifier name = .ok () ↔ startsWith builtinLead name = false ∧
      tokenize name = .ok [⟨.name name, 0⟩, ⟨.endOfInput, name.utf8ByteSize⟩]) ∧
    (∀ name : String, checkIdentifier name = .ok () →
      parse name = .ok (.name name 0) ∧ parse ("(" ++ name ++ ")") = .ok (.name name 1) ∧
      ∀ depth, parse (inParentheses depth name) = .ok (.name name depth)) ∧
    ∀ (doc : Document) (pool : Nat) (w w' : Workspace) (scope : Scope),
      doc.buildScope pool w = .ok scope w' → ∀ c ∈ doc.clauses, checkIdentifier c.name = .ok () ∧
        ∃ h, scope.get? c.name = some h ∧ ∀ depth,
          Build.compile pool (inParentheses depth c.name) scope = do
            let id ← Build.adopt pool h
            return ⟨pool, id, h.kind⟩ := by
  have shape : ∀ {name : String}, checkIdentifier name = .ok () → isIdentifier name = true :=
    fun checked => (checkIdentifier_eq_ok_iff.1 checked).1
  refine ⟨fun name => ?_, fun name checked => ?_, fun doc pool w w' scope run c mem => ?_⟩
  · rw [checkIdentifier_eq_ok_iff, isIdentifier_iff_tokenize, and_comm]
  · have read := parse_inParentheses (shape checked)
    have alone := read 0
    have grouped := read 1
    rw [inParentheses_zero] at alone
    rw [inParentheses_one] at grouped
    exact ⟨alone, grouped, read⟩
  · rw [Document.buildScope_eq] at run
    obtain ⟨checked, h, found⟩ := (Document.declared_of_buildClauses run).2 c mem
    exact ⟨checked, h, found, Build.compile_inParentheses (shape checked) found pool⟩

/-- A document whose only input has the name of a kind. -/
def Document.overlapping : Document where
  attributes := InputTable.empty.insert "vec2" .vec4
  uniforms := .empty
  definitions := []
  position := "vec2"
  colour := "vec2"
  options := .standard

/-- The name of a kind is declared and read like any other name. -/
theorem vec2_readable : checkIdentifier "vec2" = .ok () ∧
    tokenize "vec2" = .ok [⟨.name "vec2", 0⟩, ⟨.endOfInput, 4⟩] ∧
    parse (inParentheses 2 "vec2") = .ok (.name "vec2" 2) ∧
    ∃ scope w h, Document.overlapping.buildScope 0 (.empty 1) = .ok scope w ∧ scope.get? "vec2" = some h ∧
      Build.compile 0 (inParentheses 2 "vec2") scope = do
        let id ← Build.adopt 0 h
        return ⟨0, id, h.kind⟩ := by
  obtain ⟨same, read, documents⟩ := declarable_iff_readable
  have checked : checkIdentifier "vec2" = .ok () := by decide +kernel
  have first : Clause.attribute "vec2" .vec4 ∈ Document.overlapping.clauses := List.mem_singleton_self _
  cases run : Document.overlapping.buildScope 0 (.empty 1) with
  | ok scope w =>
    obtain ⟨-, h, found, compiled⟩ := documents _ _ _ _ _ run _ first
    exact ⟨checked, ((same _).1 checked).2, (read _ checked).2.2 2, scope, w, h, rfl, found, compiled 2⟩
  | error f w => cases run

end ShaderDag
