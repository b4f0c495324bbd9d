import ShaderDag.Proofs.Workspace
import ShaderDag.Text.Parser

/-!
# Kinds and trees of parsed expressions

What an expression as written means, without any pool: its kind by the rules of the language, the tree
that it spells, and the parts that break a rule.

* `CallHasKind`, `CallFaults` — the kind of a call, or why it has none;
* `Expression.HasKind` — the kind of an expression, by the rules;
* `Expression.Faults` — a part without a kind whose own parts have one, with its place and the reason;
* `Expression.tree?` — the tree that an expression spells;
* `Expression.hasKind_iff_tree?` — an expression has a kind exactly if it spells a tree of that kind;
* `FirstFault` — the first part, from left to right and children first, that has no kind.
-/

namespace ShaderDag

/-! ### Names of callees -/

theorem Kind.ofName?_eq_none {s : String} (other : ∀ kind : Kind, s ≠ kind.name) : ofName? s = none :=
  Option.eq_none_iff_forall_ne_some.2 fun kind h => other kind (ofName?_eq_some_iff.1 h)

theorem Builtin.ofName?_eq_none {s : String} (other : ∀ f : Builtin, s ≠ f.name) : ofName? s = none :=
  Option.eq_none_iff_forall_ne_some.2 fun f h => other f (ofName?_eq_some_iff.1 h)

@[simp] theorem Kind.name_ne_varying (kind : Kind) : kind.name ≠ "varying" := by
  cases kind <;> decide

@[simp] theorem Builtin.name_ne_varying (f : Builtin) : f.name ≠ "varying" := by
  cases f <;> decide

@[simp] theorem Kind.ofName?_builtin (f : Builtin) : Kind.ofName? f.name = none := by
  cases f <;> decide

/-! ### The rules -/

/-- The kind of a call, given its name and the kinds of its arguments: `varying` keeps the kind of a value
that can be interpolated, a kind's name is its constructor, and all else are functions. -/
inductive CallHasKind : String → List Kind → Kind → Prop where
  | varying {kind : Kind} : kind.canInterpolate = true → CallHasKind "varying" [kind] kind
  | construct {kind : Kind} {args : List Kind} :
      kind.canConstruct args = true → CallHasKind kind.name args kind
  | function {f : Builtin} {args : List Kind} {kind : Kind} :
      f.result? args = some kind → CallHasKind f.name args kind

/-- Why a call has no kind. -/
inductive CallFaults : String → List Kind → Cause → Prop where
  | varyingArity {args : List Kind} :
      args.length ≠ 1 → CallFaults "varying" args (.varyingArity args.length)
  | notInterpolable {kind : Kind} :
      kind.canInterpolate = false → CallFaults "varying" [kind] (.notInterpolable kind)
  | noConstructor {kind : Kind} {args : List Kind} :
      kind.canConstruct args = false → CallFaults kind.name args (.noConstructor kind args)
  | unknownFunction {callee : String} {args : List Kind} : callee ≠ "varying" →
      (∀ kind : Kind, callee ≠ kind.name) → (∀ f : Builtin, callee ≠ f.name) →
      CallFaults callee args (.unknownFunction callee)
  | noOverload {f : Builtin} {args : List Kind} :
      f.result? args = none → CallFaults f.name args (.noOverload f args)

namespace Expression

mutual

/-- The kind of an expression in which names have the kinds `kinds`. -/
inductive HasKind (kinds : String → Option Kind) : Expression → Kind → Prop where
  | numeral {value : Numeral} : HasKind kinds (.numeral value) .float
  | name {text : String} {kind : Kind} {offset : Nat} :
      kinds text = some kind → HasKind kinds (.name text offset) kind
  | negateNumeral {value : Numeral} {offset : Nat} : HasKind kinds (.negate (.numeral value) offset) .float
  | negate {operand : Expression} {inner kind : Kind} {offset : Nat} : HasKind kinds operand inner →
      Operator.mul.result? inner .float = some kind → HasKind kinds (.negate operand offset) kind
  | binary {op : Operator} {left right : Expression} {l r kind : Kind} {offset : Nat} :
      HasKind kinds left l → HasKind kinds right r → op.result? l r = some kind →
      HasKind kinds (.binary op left right offset) kind
  | call {callee : String} {args : List Expression} {ks : List Kind} {kind : Kind} {offset : Nat} :
      HaveKinds kinds args ks → CallHasKind callee ks kind → HasKind kinds (.call callee args offset) kind

/-- The kinds of expressions, one by one. -/
inductive HaveKinds (kinds : String → Option Kind) : List Expression → List Kind → Prop where
  | nil : HaveKinds kinds [] []
  | cons {e : Expression} {es : List Expression} {k : Kind} {ks : List Kind} :
      HasKind kinds e k → HaveKinds kinds es ks → HaveKinds kinds (e :: es) (k :: ks)

end

/-- An expression whose parts have kinds and which has none itself, with the offset of its name or
operator and the reason. -/
inductive Faults (kinds : String → Option Kind) : Expression → Nat → Cause → Prop where
  | unknownIdentifier {text : String} {offset : Nat} :
      kinds text = none → Faults kinds (.name text offset) offset (.unknownIdentifier text)
  | undefinedNegation {operand : Expression} {inner : Kind} {offset : Nat} : HasKind kinds operand inner →
      Operator.mul.result? inner .float = none →
      Faults kinds (.negate operand offset) offset (.undefinedNegation inner)
  | undefinedOperator {op : Operator} {left right : Expression} {l r : Kind} {offset : Nat} :
      HasKind kinds left l → HasKind kinds right r → op.result? l r = none →
      Faults kinds (.binary op left right offset) offset (.undefinedOperator op l r)
  | call {callee : String} {args : List Expression} {ks : List Kind} {cause : Cause} {offset : Nat} :
      HaveKinds kinds args ks → CallFaults callee ks cause →
      Faults kinds (.call callee args offset) offset cause

mutual

/-- The parts of an expression, from left to right, each behind its own parts. -/
def parts : Expression → List Expression
  | .numeral value => [.numeral value]
  | .name text offset => [.name text offset]
  | .negate operand offset => operand.parts ++ [.negate operand offset]
  | .binary op left right offset => left.parts ++ (right.parts ++ [.binary op left right offset])
  | .call callee args offset => partsAll args ++ [.call callee args offset]

/-- The parts of expressions, from left to right. -/
def partsAll : List Expression → List Expression
  | [] => []
  | e :: es => e.parts ++ partsAll es

end

end Expression

/-! ### Trees -/

namespace Tree

/-- A constant. -/
def literal (value : Constant) : Tree := .node .float (.literal value)

/-- An infix operation. -/
def binary? (op : Operator) (l r : Tree) : Option Tree :=
  (op.result? l.kind r.kind).map fun kind => .node kind (.operator op l r)

/-- The constructor of a kind. -/
def construct? (kind : Kind) (ts : List Tree) : Option Tree :=
  if kind.canConstruct (ts.map Tree.kind) then some (.node kind (.construct ts)) else none

/-- A function. -/
def call? (f : Builtin) (ts : List Tree) : Option Tree :=
  (f.result? (ts.map Tree.kind)).map fun kind => .node kind (.call f ts)

/-- A value interpolated between the stages. -/
def varying? (t : Tree) : Option Tree :=
  if t.kind.canInterpolate then some (.node t.kind (.varying t)) else none

/-- A call by name. -/
def invoke? (callee : String) (ts : List Tree) : Option Tree :=
  if callee = "varying" then
    match ts with
    | [t] => t.varying?
    | _ => none
  else
    match Kind.ofName? callee with
    | some kind => construct? kind ts
    | none => (Builtin.ofName? callee).bind fun f => call? f ts

@[simp] theorem invoke?_varying (t : Tree) : invoke? "varying" [t] = t.varying? := rfl

@[simp] theorem invoke?_kind (kind : Kind) (ts : List Tree) : invoke? kind.name ts = construct? kind ts := by
  unfold invoke?
  rw [if_neg kind.name_ne_varying, Kind.ofName?_name]

@[simp] theorem invoke?_builtin (f : Builtin) (ts : List Tree) : invoke? f.name ts = call? f ts := by
  unfold invoke?
  rw [if_neg f.name_ne_varying, Kind.ofName?_builtin, Builtin.ofName?_name]
  rfl

/-- The names of callees: `varying`, the kinds, the functions, and no others. -/
theorem callee_cases (callee : String) : callee = "varying" ∨ (∃ kind : Kind, callee = kind.name) ∨
    (∃ f : Builtin, callee = f.name) ∨ (callee ≠ "varying" ∧ (∀ kind : Kind, callee ≠ kind.name) ∧
      ∀ f : Builtin, callee ≠ f.name) := by
  by_cases hv : callee = "varying"
  · exact .inl hv
  by_cases hk : ∃ kind : Kind, callee = kind.name
  · exact .inr (.inl hk)
  by_cases hf : ∃ f : Builtin, callee = f.name
  · exact .inr (.inr (.inl hf))
  exact .inr (.inr (.inr ⟨hv, not_exists.1 hk, not_exists.1 hf⟩))

theorem invoke?_unknown {callee : String} {ts : List Tree} (hv : callee ≠ "varying")
    (hk : ∀ kind : Kind, callee ≠ kind.name) (hf : ∀ f : Builtin, callee ≠ f.name) :
    invoke? callee ts = none := by
  unfold invoke?
  rw [if_neg hv, Kind.ofName?_eq_none hk, Builtin.ofName?_eq_none hf]
  rfl

theorem kind_of_binary? {op : Operator} {l r t : Tree} (h : binary? op l r = some t) :
    op.result? l.kind r.kind = some t.kind := by
  obtain ⟨kind, result, rfl⟩ := Option.map_eq_some_iff.1 h
  exact result

theorem binary?_eq_none {op : Operator} {l r : Tree} (h : op.result? l.kind r.kind = none) :
    binary? op l r = none := by
  rw [binary?, h]
  rfl

/-- A call of trees has the kind that the rules give. -/
theorem callHasKind_iff {callee : String} {ts : List Tree} {kind : Kind} :
    CallHasKind callee (ts.map Tree.kind) kind ↔ ∃ t, invoke? callee ts = some t ∧ t.kind = kind := by
  constructor
  · intro h
    generalize hks : ts.map Tree.kind = ks at h
    cases h with
    | varying ok =>
      obtain ⟨t, rfl, rfl⟩ := List.map_eq_singleton_iff.1 hks
      exact ⟨.node t.kind (.varying t), by rw [invoke?_varying, varying?, if_pos ok], rfl⟩
    | construct ok =>
      subst hks
      exact ⟨.node kind (.construct ts), by rw [invoke?_kind, construct?, if_pos ok], rfl⟩
    | function result =>
      subst hks
      exact ⟨.node kind (.call _ ts), by rw [invoke?_builtin, call?, result]; rfl, rfl⟩
  · intro h
    obtain ⟨t, ht, rfl⟩ := h
    rcases callee_cases callee with rfl | ⟨kind, rfl⟩ | ⟨f, rfl⟩ | ⟨hv, hk, hf⟩
    · match ts, ht with
      | [inner], ht =>
        rw [invoke?_varying, varying?] at ht
        split at ht
        · next ok => cases ht; exact .varying ok
        · cases ht
      | [], ht => cases ht
      | _ :: _ :: _, ht => cases ht
    · rw [invoke?_kind, construct?] at ht
      split at ht
      · next ok => cases ht; exact .construct ok
      · cases ht
    · rw [invoke?_builtin, call?] at ht
      obtain ⟨kind, result, rfl⟩ := Option.map_eq_some_iff.1 ht
      exact .function result
    · rw [invoke?_unknown hv hk hf] at ht
      cases ht

/-- A call that breaks a rule is no tree. -/
theorem invoke?_eq_none {callee : String} {ts : List Tree} {cause : Cause}
    (h : CallFaults callee (ts.map Tree.kind) cause) : invoke? callee ts = none := by
  generalize hks : ts.map Tree.kind = ks at h
  cases h with
  | varyingArity arity =>
    match ts, hks with
    | [], _ => rfl
    | [t], hks => exact absurd (congrArg List.length hks).symm arity
    | _ :: _ :: _, _ => rfl
  | notInterpolable refused =>
    obtain ⟨t, rfl, rfl⟩ := List.map_eq_singleton_iff.1 hks
    rw [invoke?_varying, varying?, refused]
    rfl
  | noConstructor refused =>
    subst hks
    rw [invoke?_kind, construct?, refused]
    rfl
  | unknownFunction hv hk hf => exact invoke?_unknown hv hk hf
  | noOverload refused =>
    subst hks
    rw [invoke?_builtin, call?, refused]
    rfl

end Tree

namespace Expression

mutual

/-- The tree that an expression spells if names stand for the trees `names`.  A minus sign on a number
belongs to the number, and every other negation is a product with `-1`. -/
def tree? (names : String → Option Tree) : Expression → Option Tree
  | .numeral value => some (.literal (value.constant false))
  | .name text _ => names text
  | .negate (.numeral value) _ => some (.literal (value.constant true))
  | .negate operand _ => do
    let t ← operand.tree? names
    Tree.binary? .mul t (.literal .minusOne)
  | .binary op left right _ => do
    let l ← left.tree? names
    let r ← right.tree? names
    Tree.binary? op l r
  | .call callee args _ => do
    let ts ← treeAll? names args
    Tree.invoke? callee ts

/-- The trees that expressions spell. -/
def treeAll? (names : String → Option Tree) : List Expression → Option (List Tree)
  | [] => some []
  | e :: es => do
    let t ← e.tree? names
    let ts ← treeAll? names es
    return t :: ts

end

section Trees

variable {names : String → Option Tree} {kinds : String → Option Kind}

theorem tree?_negate {operand : Expression} {offset : Nat} (other : ∀ value, operand ≠ .numeral value) :
    (Expression.negate operand offset).tree? names =
      (operand.tree? names).bind fun t => Tree.binary? .mul t (.literal .minusOne) := by
  rw [tree?]
  · rfl
  · exact other

mutual

/-- A tree that an expression spells is of a kind that the rules give. -/
theorem hasKind_of_tree? (agree : ∀ text, (names text).map Tree.kind = kinds text) (e : Expression)
    {t : Tree} (h : e.tree? names = some t) : e.HasKind kinds t.kind := by
  match e with
  | .numeral value =>
    rw [tree?] at h
    cases h
    exact .numeral
  | .name text offset =>
    rw [tree?] at h
    exact .name (by rw [← agree, h]; rfl)
  | .negate operand offset =>
    by_cases number : ∃ value, operand = .numeral value
    · obtain ⟨value, rfl⟩ := number
      rw [tree?] at h
      cases h
      exact .negateNumeral
    · rw [tree?_negate (not_exists.1 number)] at h
      obtain ⟨inner, hi, ht⟩ := Option.bind_eq_some_iff.1 h
      exact .negate (hasKind_of_tree? agree operand hi) (Tree.kind_of_binary? ht)
  | .binary op left right offset =>
    rw [tree?] at h
    obtain ⟨l, hl, h⟩ := Option.bind_eq_some_iff.1 h
    obtain ⟨r, hr, ht⟩ := Option.bind_eq_some_iff.1 h
    exact .binary (hasKind_of_tree? agree left hl) (hasKind_of_tree? agree right hr)
      (Tree.kind_of_binary? ht)
  | .call callee args offset =>
    rw [tree?] at h
    obtain ⟨ts, hts, ht⟩ := Option.bind_eq_some_iff.1 h
    exact .call (haveKinds_of_treeAll? agree args hts) (Tree.callHasKind_iff.2 ⟨t, ht, rfl⟩)

theorem haveKinds_of_treeAll? (agree : ∀ text, (names text).map Tree.kind = kinds text)
    (es : List Expression) {ts : List Tree} (h : treeAll? names es = some ts) :
    HaveKinds kinds es (ts.map Tree.kind) := by
  match es with
  | [] =>
    rw [treeAll?] at h
    cases h
    exact .nil
  | e :: es =>
    rw [treeAll?] at h
    obtain ⟨t, ht, h⟩ := Option.bind_eq_some_iff.1 h
    obtain ⟨us, hus, h⟩ := Option.bind_eq_some_iff.1 h
    cases h
    exact .cons (hasKind_of_tree? agree e ht) (haveKinds_of_treeAll? agree es hus)

end

mutual

/-- An expression of a kind spells a tree of that kind. -/
theorem HasKind.exists_tree (agree : ∀ text, (names text).map Tree.kind = kinds text) {e : Expression}
    {kind : Kind} (h : e.HasKind kinds kind) : ∃ t, e.tree? names = some t ∧ t.kind = kind := by
  match h with
  | .numeral => exact ⟨_, by rw [tree?], rfl⟩
  | .name known =>
    rw [← agree] at known
    obtain ⟨t, ht, hk⟩ := Option.map_eq_some_iff.1 known
    exact ⟨t, by rw [tree?, ht], hk⟩
  | .negateNumeral => exact ⟨_, by rw [tree?], rfl⟩
  | @HasKind.negate _ operand inner kind offset operandKind result =>
    by_cases number : ∃ value, operand = .numeral value
    · obtain ⟨value, rfl⟩ := number
      cases operandKind
      cases result
      exact ⟨_, by rw [tree?], rfl⟩
    · obtain ⟨t, ht, rfl⟩ := HasKind.exists_tree agree operandKind
      refine ⟨.node kind (.operator .mul t (.literal .minusOne)), ?_, rfl⟩
      rw [tree?_negate (not_exists.1 number), ht, Option.bind_some, Tree.binary?]
      exact Option.map_eq_some_iff.2 ⟨kind, result, rfl⟩
  | @HasKind.binary _ op left right l r kind offset leftKind rightKind result =>
    obtain ⟨tl, hl, rfl⟩ := HasKind.exists_tree agree leftKind
    obtain ⟨tr, hr, rfl⟩ := HasKind.exists_tree agree rightKind
    refine ⟨.node kind (.operator op tl tr), ?_, rfl⟩
    simp only [tree?, hl, hr, Tree.binary?, result, bind, Option.bind_some, Option.map_some]
  | .call argKinds rule =>
    obtain ⟨ts, hts, rfl⟩ := HaveKinds.exists_trees agree argKinds
    obtain ⟨t, ht, hk⟩ := Tree.callHasKind_iff.1 rule
    exact ⟨t, by simp only [tree?, hts, bind, Option.bind_some, ht], hk⟩

theorem HaveKinds.exists_trees (agree : ∀ text, (names text).map Tree.kind = kinds text)
    {es : List Expression} {ks : List Kind} (h : HaveKinds kinds es ks) :
    ∃ ts, treeAll? names es = some ts ∧ ts.map Tree.kind = ks := by
  match h with
  | .nil => exact ⟨[], by rw [treeAll?], rfl⟩
  | .cons first rest =>
    obtain ⟨t, ht, rfl⟩ := HasKind.exists_tree agree first
    obtain ⟨ts, hts, rfl⟩ := HaveKinds.exists_trees agree rest
    exact ⟨t :: ts, by simp only [treeAll?, ht, hts, bind, Option.bind_some]; rfl, rfl⟩

end

/-- **Kinds and trees agree.**  An expression has a kind exactly if it spells a tree of that kind. -/
theorem hasKind_iff_tree? (agree : ∀ text, (names text).map Tree.kind = kinds text) {e : Expression}
    {kind : Kind} : e.HasKind kinds kind ↔ ∃ t, e.tree? names = some t ∧ t.kind = kind := by
  constructor
  · exact fun h => h.exists_tree agree
  · intro h
    obtain ⟨t, ht, rfl⟩ := h
    exact hasKind_of_tree? agree e ht

/-- An expression that breaks a rule spells no tree. -/
theorem Faults.tree?_eq_none (agree : ∀ text, (names text).map Tree.kind = kinds text) {e : Expression}
    {offset : Nat} {cause : Cause} (h : e.Faults kinds offset cause) : e.tree? names = none := by
  cases h with
  | unknownIdentifier unknown =>
    rw [← agree] at unknown
    rw [tree?, Option.map_eq_none_iff.1 unknown]
  | @undefinedNegation operand inner offset operandKind refused =>
    have other : ∀ value, operand ≠ .numeral value := by
      intro value same
      subst same
      cases operandKind
      cases refused
    obtain ⟨t, ht, rfl⟩ := operandKind.exists_tree agree
    rw [tree?_negate other, ht, Option.bind_some, Tree.binary?_eq_none refused]
  | undefinedOperator leftKind rightKind refused =>
    obtain ⟨tl, hl, rfl⟩ := leftKind.exists_tree agree
    obtain ⟨tr, hr, rfl⟩ := rightKind.exists_tree agree
    simp only [tree?, hl, hr, bind, Option.bind_some, Tree.binary?_eq_none refused]
  | call argKinds refused =>
    obtain ⟨ts, hts, rfl⟩ := argKinds.exists_trees agree
    simp only [tree?, hts, bind, Option.bind_some, Tree.invoke?_eq_none refused]

mutual

/-- The parts of an expression that spells a tree spell trees. -/
theorem tree?_parts (e : Expression) {t : Tree} (h : e.tree? names = some t) :
    ∀ part ∈ e.parts, ∃ u, part.tree? names = some u := by
  intro part mem
  match e with
  | .numeral value =>
    rw [parts, List.mem_singleton] at mem
    exact ⟨t, mem ▸ h⟩
  | .name text offset =>
    rw [parts, List.mem_singleton] at mem
    exact ⟨t, mem ▸ h⟩
  | .negate operand offset =>
    rw [parts, List.mem_append, List.mem_singleton] at mem
    rcases mem with mem | rfl
    · by_cases number : ∃ value, operand = .numeral value
      · obtain ⟨value, rfl⟩ := number
        rw [parts, List.mem_singleton] at mem
        exact ⟨_, by rw [mem, tree?]⟩
      · rw [tree?_negate (not_exists.1 number)] at h
        obtain ⟨inner, hi, -⟩ := Option.bind_eq_some_iff.1 h
        exact tree?_parts operand hi part mem
    · exact ⟨t, h⟩
  | .binary op left right offset =>
    rw [parts, List.mem_append, List.mem_append, List.mem_singleton] at mem
    rcases mem with mem | mem | rfl
    · rw [tree?] at h
      obtain ⟨l, hl, -⟩ := Option.bind_eq_some_iff.1 h
      exact tree?_parts left hl part mem
    · rw [tree?] at h
      obtain ⟨l, -, h⟩ := Option.bind_eq_some_iff.1 h
      obtain ⟨r, hr, -⟩ := Option.bind_eq_some_iff.1 h
      exact tree?_parts right hr part mem
    · exact ⟨t, h⟩
  | .call callee args offset =>
    rw [parts, List.mem_append, List.mem_singleton] at mem
    rcases mem with mem | rfl
    · rw [tree?] at h
      obtain ⟨ts, hts, -⟩ := Option.bind_eq_some_iff.1 h
      exact treeAll?_parts args hts part mem
    · exact ⟨t, h⟩

theorem treeAll?_parts (es : List Expression) {ts : List Tree} (h : treeAll? names es = some ts) :
    ∀ part ∈ partsAll es, ∃ u, part.tree? names = some u := by
  intro part mem
  match es with
  | [] => simp [partsAll] at mem
  | e :: es =>
    rw [treeAll?] at h
    obtain ⟨t, ht, h⟩ := Option.bind_eq_some_iff.1 h
    obtain ⟨us, hus, -⟩ := Option.bind_eq_some_iff.1 h
    rw [partsAll, List.mem_append] at mem
    rcases mem with mem | mem
    · exact tree?_parts e ht part mem
    · exact treeAll?_parts es hus part mem

end

end Trees

end Expression

/-! ### The first fault -/

/-- A failure that is the fault of one of some expressions, in front of which all have kinds. -/
def FirstFault (kinds : String → Option Kind) (parts : List Expression) (f : Failure) : Prop :=
  ∃ before part after offset, parts = before ++ part :: after ∧
    (∀ e ∈ before, ∃ kind, e.HasKind kinds kind) ∧ part.Faults kinds offset f.cause ∧
    f.offset = some offset ∧ f.item = none

namespace FirstFault

variable {kinds : String → Option Kind} {ps qs : List Expression} {f : Failure}

theorem of_faults {e : Expression} {offset : Nat} {cause : Cause} (h : e.Faults kinds offset cause) :
    FirstFault kinds [e] ((Failure.ofCause cause).locate offset) :=
  ⟨[], e, [], offset, rfl, by simp, h, rfl, rfl⟩

theorem append_right (h : FirstFault kinds ps f) (qs : List Expression) : FirstFault kinds (ps ++ qs) f := by
  obtain ⟨before, part, after, offset, rfl, sound, faults, place⟩ := h
  exact ⟨before, part, after ++ qs, offset, by simp, sound, faults, place⟩

theorem append_left (h : FirstFault kinds qs f) (sound : ∀ e ∈ ps, ∃ kind, e.HasKind kinds kind) :
    FirstFault kinds (ps ++ qs) f := by
  obtain ⟨before, part, after, offset, rfl, sound', faults, place⟩ := h
  refine ⟨ps ++ before, part, after, offset, by simp, ?_, faults, place⟩
  intro e he
  rcases List.mem_append.1 he with he | he
  · exact sound e he
  · exact sound' e he

end FirstFault

end ShaderDag
