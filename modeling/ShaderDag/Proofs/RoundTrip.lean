import ShaderDag.Proofs.Descent
import ShaderDag.Proofs.Hoist
import ShaderDag.Proofs.Lowering
import ShaderDag.Proofs.Spelling

/-!
# Written terms are read back

The text of a term has every operation in parentheses and every bound node by its name.  Read as an
expression, in a scope in which the names stand for the nodes that they were given to, it is built into the
node that it was written for.

* `Term.chars` — the characters of a term, by recursion; `Term.toList_text` — they are its text;
* `Term.tree?` — the tree that a term stands for;
* `Term.reads` — the text of a term derives an expression that spells the same tree;
* `Pool.Meets` — the nodes that the term of a node looks at;
* `Pool.exists_readable_term` — the term of a node stands for the node's tree;
* `Session.Reachable.compile_text` — the text of a node, compiled, is the node.
-/

namespace ShaderDag

/-! ### The text of a term -/

namespace Term

mutual

/-- The characters of a term. -/
def chars : Term → List Char
  | .name text => text.toList
  | .literal value => value.text.toList
  | .operator op lhs rhs =>
    '(' :: (lhs.chars ++ (' ' :: (op.symbol.toList ++ (' ' :: (rhs.chars ++ [')'])))))
  | .apply callee [] => callee.name.toList ++ ['(', ')']
  | .apply callee (t :: ts) => callee.name.toList ++ ('(' :: (t.chars ++ (moreChars ts ++ [')'])))

/-- The characters of further arguments, each behind a comma. -/
def moreChars : List Term → List Char
  | [] => []
  | t :: ts => ',' :: ' ' :: (t.chars ++ moreChars ts)

end

end Term

namespace Piece

/-- The characters of a piece. -/
def chars : Piece → List Char
  | .text s => s.toList
  | .term t => t.chars

theorem chars_arguments (t : Term) (ts : List Term) :
    (arguments (t :: ts)).flatMap chars = t.chars ++ Term.moreChars ts := by
  induction ts generalizing t with
  | nil => simp [arguments, chars, Term.moreChars]
  | cons u us ih =>
    rw [arguments, List.flatMap_cons, List.flatMap_cons, ih, Term.moreChars]
    · rfl
    · simp

theorem chars_ofTerm (t : Term) : (ofTerm t).flatMap chars = t.chars := by
  match t with
  | .name word => simp [ofTerm, chars, Term.chars]
  | .literal value => simp [ofTerm, chars, Term.chars]
  | .operator op lhs rhs => simp [ofTerm, chars, Term.chars, String.toList_append]
  | .apply callee [] => simp [ofTerm, arguments, chars, Term.chars, String.toList_append]
  | .apply callee (t :: ts) =>
    rw [ofTerm, List.flatMap_cons, List.flatMap_append, chars_arguments]
    simp [chars, Term.chars, String.toList_append]

theorem toList_write (out : String) (pending : List Piece) :
    (write out pending).toList = out.toList ++ pending.flatMap chars := by
  fun_induction write out pending with
  | case1 out => simp
  | case2 out s rest ih => simp [ih, String.toList_append, chars]
  | case3 out t rest ih => rw [ih, List.flatMap_append, chars_ofTerm, List.flatMap_cons, chars]

end Piece

@[simp] theorem Term.toList_text (t : Term) : t.text.toList = t.chars := by
  rw [Term.text, Piece.toList_write]
  simp [Piece.chars]

/-! ### Terms that can be read -/

namespace Term

mutual

/-- A term whose names are identifiers and whose constants are numbers that are read back. -/
def Readable : Term → Prop
  | .name text => isIdentifier text = true
  | .literal value => value.IsFinite ∧ value.ReadsBack
  | .operator _ lhs rhs => lhs.Readable ∧ rhs.Readable
  | .apply _ args => ReadableAll args

/-- Terms that can be read. -/
def ReadableAll : List Term → Prop
  | [] => True
  | t :: ts => t.Readable ∧ ReadableAll ts

end

mutual

/-- The tree that a term stands for if names stand for the trees `names`. -/
def tree? (names : String → Option Tree) : Term → Option Tree
  | .name text => names text
  | .literal value => some (.literal value)
  | .operator op lhs rhs => do
    let l ← lhs.tree? names
    let r ← rhs.tree? names
    Tree.binary? op l r
  | .apply callee args => do
    let ts ← treeAll? names args
    Tree.invoke? callee.name ts

/-- The trees that terms stand for. -/
def treeAll? (names : String → Option Tree) : List Term → Option (List Tree)
  | [] => some []
  | t :: ts => do
    let u ← t.tree? names
    let us ← treeAll? names ts
    return u :: us

end

end Term

/-- The lexeme of an operator, and the sums and products that it makes of two operands. -/
theorem Operator.exists_lexeme (op : Operator) : ∃ c lexeme, op.symbol.toList = [c] ∧
    symbolLexeme? c = some lexeme ∧ ∀ {ts us : List Token} {l r : Expression} (offset : Nat),
      Derives .unary ts l → Derives .unary us r →
      Derives .term (ts ++ ⟨lexeme, offset⟩ :: us) (.binary op l r offset) := by
  cases op with
  | add =>
    refine ⟨'+', .plus, by decide, rfl, fun offset left right => ?_⟩
    exact .sum (t := ⟨.plus, offset⟩) (.ofFactor (.ofUnary left)) rfl (.ofUnary right)
  | sub =>
    refine ⟨'-', .minus, by decide, rfl, fun offset left right => ?_⟩
    exact .sum (t := ⟨.minus, offset⟩) (.ofFactor (.ofUnary left)) rfl (.ofUnary right)
  | mul =>
    refine ⟨'*', .star, by decide, rfl, fun offset left right => ?_⟩
    exact .ofFactor (.product (.ofUnary left) right)

@[simp] theorem Callee.isIdentifier_name (callee : Callee) : isIdentifier callee.name = true := by
  cases callee with
  | function f => cases f <;> decide
  | constructor kind => cases kind <;> decide

/-- The expression of a number with or without a minus sign. -/
def Constant.expression (negative : Bool) (v : Numeral) (offset : Nat) : Expression :=
  if negative then .negate (.numeral v) offset else .numeral v

theorem Constant.derives_tokens (negative : Bool) (v : Numeral) (offset : Nat) :
    Derives .unary (tokens negative v offset) (expression negative v offset) := by
  unfold tokens expression
  cases negative with
  | true => exact .negate (.ofPrimary (.numeral v (offset + 1)))
  | false => exact .ofPrimary (.numeral v offset)

theorem Constant.tree?_expression (names : String → Option Tree) (negative : Bool) (v : Numeral)
    (offset : Nat) :
    (expression negative v offset).tree? names = some (.literal (v.constant negative)) := by
  unfold expression
  cases negative with
  | true => rw [if_pos rfl, Expression.tree?]
  | false => rw [if_neg Bool.false_ne_true, Expression.tree?]

/-- A constant is read as a number, or as a negated number. -/
theorem Constant.reads {c : Constant} (finite : c.IsFinite) (back : c.ReadsBack)
    (names : String → Option Tree) (offset : Nat) :
    ∃ ts e, Spells c.text.toList offset ts ∧ Derives .unary ts e ∧
      e.tree? names = some (.literal c) := by
  obtain ⟨v, same, spelled⟩ := back.exists_numeral finite
  have tree := tree?_expression names c.isNegative v offset
  rw [same] at tree
  exact ⟨_, _, spelled offset, derives_tokens _ _ _, tree⟩

/-- An operation in parentheses. -/
theorem derives_group {ts us : List Token} {t : Token} {e : Expression} {o c : Nat}
    (inner : Derives .term (ts ++ t :: us) e) :
    Derives .primary (⟨.openParen, o⟩ :: (ts ++ t :: (us ++ [⟨.closeParen, c⟩]))) e := by
  have grouped := Derives.group (o := o) (c := c) inner
  rwa [List.append_assoc, List.cons_append] at grouped

namespace Term

mutual

/-- **Terms are read back.**  By induction on the term: its text is cut into tokens that derive an operand,
and the operand spells the tree that the term stands for. -/
theorem reads (names : String → Option Tree) (t : Term) (readable : t.Readable) (offset : Nat) :
    ∃ ts e, Spells t.chars offset ts ∧ Derives .unary ts e ∧ e.tree? names = t.tree? names := by
  match t with
  | .name text =>
    rw [Readable] at readable
    rw [chars]
    exact ⟨_, _, spells_name readable offset, .ofPrimary (.name text offset),
      by rw [Expression.tree?, tree?]⟩
  | .literal value =>
    rw [Readable] at readable
    rw [chars, tree?]
    exact Constant.reads readable.1 readable.2 names offset
  | .operator op lhs rhs =>
    rw [Readable] at readable
    obtain ⟨c, lexeme, symbol, known, derives⟩ := op.exists_lexeme
    obtain ⟨ts, l, leftSpelled, left, leftTree⟩ := reads names lhs readable.1 (offset + 1)
    obtain ⟨us, r, rightSpelled, right, rightTree⟩ :=
      reads names rhs readable.2 (offset + 1 + lhs.chars.length + 1 + 1 + 1)
    have middle := leftSpelled.append (.blank (.symbol known (.blank rightSpelled.close))) closes_blank
    have opened : symbolLexeme? '(' = some .openParen := rfl
    rw [chars, symbol]
    refine ⟨_, _, .symbol opened middle, .ofPrimary (derives_group (derives _ left right)), ?_⟩
    rw [Expression.tree?, tree?, leftTree, rightTree]
  | .apply callee [] =>
    have opened : symbolLexeme? '(' = some .openParen := rfl
    have spelled := (spells_name callee.isIdentifier_name offset).append
      (.symbol opened (spells_nil _).close) (closes_symbol opened)
    rw [chars]
    refine ⟨_, _, spelled, .ofPrimary (.emptyCall _ _ _ _), ?_⟩
    rw [Expression.tree?, tree?, Expression.treeAll?, treeAll?]
  | .apply callee (t :: ts) =>
    rw [Readable, ReadableAll] at readable
    have opened : symbolLexeme? '(' = some .openParen := rfl
    obtain ⟨us, e, firstSpelled, first, firstTree⟩ :=
      reads names t readable.1 (offset + callee.name.toList.length + 1)
    obtain ⟨vs, es, argsSpelled, args, argTrees⟩ :=
      reads_more names ts readable.2 firstSpelled (.lone (.ofFactor (.ofUnary first)))
    have spelled := (spells_name callee.isIdentifier_name offset).append
      (.symbol opened argsSpelled.close) (closes_symbol opened)
    rw [chars, ← List.append_assoc t.chars]
    refine ⟨_, _, spelled, .ofPrimary (.call args), ?_⟩
    simp only [Expression.tree?, tree?, Expression.treeAll?, treeAll?, List.singleton_append, firstTree,
      argTrees]

/-- Further arguments are read behind earlier ones. -/
theorem reads_more (names : String → Option Tree) (args : List Term) (readable : ReadableAll args)
    {offset : Nat} {cs : List Char} {before : List Token} {es : List Expression}
    (spelled : Spells cs offset before) (earlier : Derives .arguments before es) :
    ∃ us es', Spells (cs ++ moreChars args) offset us ∧ Derives .arguments us (es ++ es') ∧
      Expression.treeAll? names es' = treeAll? names args := by
  match args with
  | [] =>
    refine ⟨before, [], ?_, by rwa [List.append_nil], by rw [Expression.treeAll?, treeAll?]⟩
    rwa [moreChars, List.append_nil]
  | t :: ts =>
    rw [ReadableAll] at readable
    have comma : symbolLexeme? ',' = some .comma := rfl
    obtain ⟨us, e, nextSpelled, next, nextTree⟩ := reads names t readable.1 (offset + cs.length + 1 + 1)
    have spelled' := spelled.append (.symbol comma (.blank nextSpelled)) (closes_symbol comma)
    have earlier' := Derives.more (o := offset + cs.length) earlier (.ofFactor (.ofUnary next))
    obtain ⟨vs, es', allSpelled, all, trees⟩ := reads_more names ts readable.2 spelled' earlier'
    refine ⟨vs, e :: es', ?_, ?_, ?_⟩
    · simpa [moreChars] using allSpelled
    · simpa using all
    · simp only [Expression.treeAll?, treeAll?, nextTree, trees]

end

/-- The text of a term is an expression that spells the term's tree. -/
theorem parse_text (names : String → Option Tree) {t : Term} (readable : t.Readable) :
    ∃ e, parse t.text = .ok e ∧ e.tree? names = t.tree? names := by
  obtain ⟨ts, e, spelled, derived, same⟩ := t.reads names readable 0
  have tokens : tokenize t.text = .ok (ts ++ [⟨.endOfInput, 0 + t.chars.length⟩]) := by
    have alone := spelled [] _ closes_nil (by rw [tokenizeFrom])
    rw [tokenize, toList_text]
    rwa [List.append_nil] at alone
  refine ⟨e, ?_, same⟩
  rw [parse, tokens, ok_bind]
  exact parseTokens_of_derives (.ofFactor (.ofUnary derived))

/-! ### Terms of operations -/

section Operations

variable {names : String → Option Tree}

theorem treeAll?_eq_some {ts : List Term} {us : List Tree} (h : ts.map (tree? names) = us.map some) :
    treeAll? names ts = some us := by
  induction ts generalizing us with
  | nil =>
    rw [List.map_nil, eq_comm, List.map_eq_nil_iff] at h
    rw [h, treeAll?]
  | cons t ts ih =>
    cases us with
    | nil => cases h
    | cons u us =>
      simp only [List.map_cons, List.cons.injEq] at h
      simp only [treeAll?, h.1, ih h.2, bind, Option.bind_some]
      rfl

theorem readableAll_of_forall {ts : List Term} (all : ∀ t ∈ ts, t.Readable) : ReadableAll ts := by
  induction ts with
  | nil => trivial
  | cons t ts ih =>
    exact ⟨all t List.mem_cons_self, ih fun u hu => all u (List.mem_cons_of_mem t hu)⟩

/-- The term of an operation stands for the operation on the trees of its children. -/
theorem tree?_ofNode {kind : Kind} {n : Node Term} {operation : Node Tree} (inner : n.isInput = false)
    (trees : n.map (tree? names) = operation.map some) (fits : kind.Fits (operation.map Tree.kind)) :
    (ofNode kind n).tree? names = some (.node kind operation) := by
  match n, operation, inner, trees, fits with
  | .operator op l r, .operator op' tl tr, _, trees, fits =>
    simp only [Node.map, Node.operator.injEq] at trees
    obtain ⟨rfl, hl, hr⟩ := trees
    have result : op.result? tl.kind tr.kind = some kind := fits
    simp only [ofNode, tree?, hl, hr, bind, Option.bind_some, Tree.binary?, result, Option.map_some]
  | .call f args, .call f' ts, _, trees, fits =>
    simp only [Node.map, Node.call.injEq] at trees
    obtain ⟨rfl, hargs⟩ := trees
    have result : f.result? (ts.map Tree.kind) = some kind := fits
    simp only [ofNode, tree?, treeAll?_eq_some hargs, bind, Option.bind_some, Callee.name,
      Tree.invoke?_builtin, Tree.call?, result, Option.map_some]
  | .construct args, .construct ts, _, trees, fits =>
    simp only [Node.map, Node.construct.injEq] at trees
    have accepted : kind.canConstruct (ts.map Tree.kind) = true := fits
    simp only [ofNode, tree?, treeAll?_eq_some trees, bind, Option.bind_some, Callee.name,
      Tree.invoke?_kind, Tree.construct?, accepted, if_true]
  | .literal value, .literal value', _, trees, fits =>
    simp only [Node.map, Node.literal.injEq] at trees
    obtain rfl : kind = .float := fits
    rw [ofNode, tree?, trees, Tree.literal]

/-- The term of an operation can be read if the terms of its children can. -/
theorem readable_ofNode {kind : Kind} {n : Node Term} (inner : n.isInput = false)
    (children : ∀ t ∈ n.children, t.Readable)
    (literal : ∀ value, n = .literal value → value.IsFinite ∧ value.ReadsBack) :
    (ofNode kind n).Readable := by
  match n, inner, children, literal with
  | .operator op l r, _, children, _ =>
    rw [ofNode, Readable]
    exact ⟨children l (by simp [Node.children]), children r (by simp [Node.children])⟩
  | .call f args, _, children, _ =>
    rw [ofNode, Readable]
    exact readableAll_of_forall children
  | .construct args, _, children, _ =>
    rw [ofNode, Readable]
    exact readableAll_of_forall children
  | .literal value, _, _, literal =>
    rw [ofNode, Readable]
    exact literal value rfl

end Operations

end Term

/-! ### Terms of nodes -/

namespace Pool

variable {p : Pool} {names : Binder} {root : Nat}

/-- The term of a node looks at another node: there is a path to it on which no node before it has a
name. -/
def Meets (p : Pool) (names : Binder) (root id : Nat) : Prop :=
  p.ReachesBy (fun c => names.nameOf? c = none) root id

/-- A node of which all inputs that its term meets have names, and all literals are numbers that are read
back. -/
structure Writable (p : Pool) (names : Binder) (root : Nat) : Prop where
  present : root < p.size
  inputs : ∀ id, p.Meets names root id → p.isInput id = true → ∃ name, names.nameOf? id = some name
  literals : ∀ id value, p.Meets names root id → names.nameOf? id = none →
    p.node? id = some (.literal value) → value.IsFinite ∧ value.ReadsBack

theorem Writable.termClosed (writable : p.Writable names root) :
    p.TermClosed names (p.Meets names root) where
  present id met := (ReachesBy.reaches met).lt_size writable.present
  operation id met free := by
    rw [Bool.eq_false_iff]
    intro input
    obtain ⟨name, bound⟩ := writable.inputs id met input
    rw [free] at bound
    cases bound
  child id c met free step := met.tail ⟨free, step⟩

/-- The kinds of a node's children are those of their trees. -/
theorem map_kind_of_trees {node : Node Nat} {operation : Node Tree}
    (trees : node.map p.tree? = operation.map some) : node.map p.kind = operation.map Tree.kind :=
  Node.map_eq_map_of (fun _ _ _ _ => kind_of_tree) trees

/-- **The term of a node stands for its tree.**  Names stand for the trees of the nodes that they were
given to, and operations for themselves. -/
theorem exists_readable_term {trees : String → Option Tree} (wf : p.WellFormed) (sound : names.Sound)
    (writable : p.Writable names root)
    (defined : ∀ id name, id < p.size → names.nameOf? id = some name → trees name = p.tree? id) :
    ∃ t, p.term names root = .ok t ∧ t.Readable ∧ t.tree? trees = p.tree? root := by
  refine writable.termClosed.induction (motive := fun id t => t.Readable ∧ t.tree? trees = p.tree? id) wf
    ?_ ?_ root .refl
  · intro id name met bound
    refine ⟨?_, ?_⟩
    · rw [Term.Readable]
      exact sound.isIdentifier bound
    · rw [Term.tree?]
      exact defined id name (writable.termClosed.present id met) bound
  · intro id e m met he inner free same children
    obtain ⟨⟨kind, operation⟩, ht⟩ := wf.exists_tree (entry?_lt he)
    obtain ⟨e', he', below, childTrees, rfl⟩ := tree?_eq_some_iff.1 ht
    cases he.symm.trans he'
    have inner' : (m.map (·.2)).isInput = false := by
      simpa [same] using inner
    refine ⟨Term.readable_ofNode inner' ?_ ?_, ?_⟩
    · intro t ht
      obtain ⟨x, hx, rfl⟩ := Node.mem_children_map.1 ht
      exact (children x hx).2.2.1
    · intro value literal
      have node : e.node = .literal value := by
        cases m <;> simp_all [Node.map]
      exact writable.literals id value met free (node?_eq_some_iff.2 ⟨e, he, by rw [node]; rfl⟩)
    · rw [ht]
      refine Term.tree?_ofNode inner' ?_ (map_kind_of_trees childTrees ▸ wf.kinded id e he)
      rw [← childTrees, same, Node.map_map, Node.map_map]
      exact Node.map_congr fun x hx => (children x hx).2.2.2

end Pool

namespace Session

variable {s : Session} {i n : Nat} {names : Binder} {scope : Scope}

/-- **The text of a node is read back as the node.**  In every pool of a reachable session, with a binder
grown from the reserved names whose names the scope defines as the nodes they were given to: a node whose
term meets only inputs with names, and literals that are numbers and are read back, has a term, and the
text of the term compiles to the node itself. -/
theorem Reachable.compile_text (reachable : s.Reachable)
    (given : ∀ entry ∈ scope.names, entry.2 ∈ s.handles) (grown : names.Grown)
    (defined : ∀ id name, id < (s.workspace.pool i).size → names.nameOf? id = some name →
      scope.get? name = some ⟨i, id, (s.workspace.pool i).kind id⟩)
    (writable : (s.workspace.pool i).Writable names n) :
    ∃ t w, (s.workspace.pool i).term names n = .ok t ∧
      Build.compile i t.text scope s.workspace = .ok ⟨i, n, (s.workspace.pool i).kind n⟩ w := by
  have valid := reachable.valid
  have wf := valid.wellFormed
  have held : Build.ScopeHeld s.workspace scope := fun entry mem => valid.handles _ (given entry mem)
  have here : s.HasPool i := Workspace.lt_pools_of_lt_size writable.present
  have standing : ∀ id name, id < (s.workspace.pool i).size → names.nameOf? id = some name →
      scope.tree? s.workspace name = (s.workspace.pool i).tree? id := by
    intro id name present bound
    rw [Scope.tree?, defined id name present bound, Option.bind_some]
  obtain ⟨t, written, readable, same⟩ := Pool.exists_readable_term (wf i) grown.sound writable standing
  obtain ⟨e, parsed, spelled⟩ := Term.parse_text (scope.tree? s.workspace) readable
  obtain ⟨u, hu⟩ := (wf i).exists_tree writable.present
  obtain ⟨h, w, run, grows, stands⟩ := Build.lower_of_tree? wf here held (spelled.trans (same.trans hu))
  -- the node that was built and the node that was written have the same tree
  have id : h.id = n := (grows.wellFormed i).tree_injective stands.tree ((grows.kept i).tree?_eq hu)
  have handle : h = ⟨i, n, (s.workspace.pool i).kind n⟩ := by
    obtain ⟨pool, node, kind⟩ := h
    obtain rfl : pool = i := stands.home
    obtain rfl : node = n := id
    rw [Pool.kind_of_tree hu, stands.kind]
  refine ⟨t, w, written, ?_⟩
  rw [Build.compile, parsed, ← handle]
  exact run

/-! ### A negative literal behind a minus sign -/

/-- The session with the uniform `phase`, the constant `-1` and their difference in one pool. -/
def shifted : Session :=
  ⟨⟨#[((Pool.empty.withNode .float (.uniform "phase")).withNode .float (.literal .minusOne)).withNode .float
      (.operator .sub 0 1)]⟩, [⟨0, 2, .float⟩, ⟨0, 1, .float⟩, ⟨0, 0, .float⟩], []⟩

theorem reachable_shifted : shifted.Reachable := by
  have start : Reachable ⟨⟨#[Pool.empty]⟩, [], []⟩ := ⟨1, .refl⟩
  have first := start.handle (.addUniform "phase" .float Nat.one_pos)
    (Build.intern_new_at (by decide +kernel))
  have second := first.handle (.addConstant .minusOne Nat.one_pos)
    (Build.intern_new_at (by decide +kernel))
  exact second.handle (.binary .sub (List.mem_cons_of_mem _ List.mem_cons_self) List.mem_cons_self)
    (Build.intern_new_at (by decide +kernel))

/-- The difference is written `(u - -1.0)`, and this text is the difference again. -/
theorem shifted_compile_text :
    let scope : Scope := ⟨[("u", ⟨0, 0, .float⟩)]⟩
    let names := Binder.withReserved.withName 0 "u"
    shifted.Reachable ∧ names.Grown ∧ (shifted.workspace.pool 0).Writable names 2 ∧
      ∃ t w, (shifted.workspace.pool 0).term names 2 = .ok t ∧
        Build.compile 0 t.text scope shifted.workspace = .ok ⟨0, 2, .float⟩ w := by
  intro scope names
  have given : ∀ entry ∈ scope.names, entry.2 ∈ shifted.handles := by decide
  have grown : names.Grown := .bind .start (Binder.bind_eq_ok_iff.2 ⟨by decide, rfl, by decide, rfl⟩)
  have bound : ∀ id, names.nameOf? id = if id = 0 then some "u" else none := fun id =>
    Binder.nameOf?_withName id
  have below : ∀ id, (shifted.workspace.pool 0).Meets names 2 id → id = 0 ∨ id = 1 ∨ id = 2 := by
    intro id met
    have : id ≤ 2 := (Pool.ReachesBy.reaches met).le
    omega
  have writable : (shifted.workspace.pool 0).Writable names 2 := by
    refine ⟨by decide, ?_, ?_⟩
    · intro id met input
      rcases below id met with rfl | rfl | rfl
      · exact ⟨"u", bound 0⟩
      all_goals exact absurd input (by decide)
    · intro id value met free literal
      rcases below id met with rfl | rfl | rfl <;> cases literal
      exact ⟨Constant.finite_minusOne, Constant.readsBack_minusOne⟩
  refine ⟨reachable_shifted, grown, writable,
    reachable_shifted.compile_text given grown ?_ writable⟩
  intro id name present named
  rw [bound] at named
  split at named
  · next same =>
    cases same
    cases named
    rfl
  · cases named

end Session

end ShaderDag
