import ShaderDag.Proofs.Glossary
import ShaderDag.Proofs.Structure

/-!
# Documents that are built

What was checked while a document was built need not be checked again: the inputs of its program are inputs
of the document, so their names may be declared and are different.  And what is generated depends on the
trees of the outputs alone, so neither the order of definitions nor entries that nothing uses show in it.

* `Tree.DrawsFrom` — the inputs of a tree are among some clauses;
* `Glosses.drawsFrom` — every tree of a glossary draws from the clauses, by induction along them;
* `Document.InputsOf` — what is known of the inputs of a built document;
* `Pool.LateOutcome` — how the assembly of a built document can end;
* `Session.Reachable.built_assembles` — the statement about every document that is built;
* `Document.Rearranges`, `Session.Reachable.rearranged_assembles` — documents with the same source.
-/

namespace ShaderDag

/-! ### The inputs of trees -/

/-- The clause that declares the input at the top of a tree. -/
def Clause.ofNode? {α : Type} (kind : Kind) : Node α → Option Clause
  | .attribute name => some (.attribute name kind)
  | .uniform name => some (.uniform name kind)
  | _ => none

theorem Clause.ofNode?_map {α β : Type} (kind : Kind) (f : α → β) (n : Node α) :
    ofNode? kind (n.map f) = ofNode? kind n := by
  cases n <;> rfl

/-- An input is known by its clause. -/
theorem Clause.ofNode?_inj {α : Type} {kind kind' : Kind} {n m : Node α} {c : Clause}
    (h : ofNode? kind n = some c) (h' : ofNode? kind' m = some c) : kind = kind' ∧ n = m := by
  match n, m, h, h' with
  | .attribute name, .attribute name', h, h' =>
    cases h
    cases h'
    exact ⟨rfl, rfl⟩
  | .uniform name, .uniform name', h, h' =>
    cases h
    cases h'
    exact ⟨rfl, rfl⟩

/-- The attributes and uniforms of a tree are declared, with their kinds, by some of the clauses. -/
inductive Tree.DrawsFrom (clauses : List Clause) : Tree → Prop where
  | node {kind : Kind} {operation : Node Tree}
      (top : ∀ c, Clause.ofNode? kind operation = some c → c ∈ clauses)
      (below : ∀ t ∈ operation.children, DrawsFrom clauses t) : DrawsFrom clauses (.node kind operation)

section Draws

variable {clauses : List Clause}

namespace Tree

/-- What is no input itself draws from where its operands do. -/
theorem drawsFrom_operation {kind : Kind} {operation : Node Tree}
    (plain : Clause.ofNode? kind operation = none)
    (below : ∀ t ∈ operation.children, t.DrawsFrom clauses) : (node kind operation).DrawsFrom clauses := by
  refine .node (fun c found => ?_) below
  rw [plain] at found
  cases found

theorem drawsFrom_literal (value : Constant) : (literal value).DrawsFrom clauses :=
  drawsFrom_operation rfl (by simp [Node.children])

theorem drawsFrom_input {kind : Kind} {operation : Node Tree} {c : Clause} (mem : c ∈ clauses)
    (declared : Clause.ofNode? kind operation = some c) (leaf : operation.children = []) :
    (node kind operation).DrawsFrom clauses := by
  refine .node (fun d found => ?_) (by simp [leaf])
  cases declared.symm.trans found
  exact mem

theorem drawsFrom_binary? {op : Operator} {l r t : Tree} (left : l.DrawsFrom clauses)
    (right : r.DrawsFrom clauses) (h : binary? op l r = some t) : t.DrawsFrom clauses := by
  obtain ⟨kind, -, rfl⟩ := Option.map_eq_some_iff.1 h
  refine drawsFrom_operation rfl fun u mem => ?_
  rcases List.mem_cons.1 mem with rfl | mem
  · exact left
  · rwa [List.mem_singleton.1 mem]

theorem drawsFrom_varying? {t u : Tree} (inner : t.DrawsFrom clauses) (h : t.varying? = some u) :
    u.DrawsFrom clauses := by
  unfold varying? at h
  split at h
  · cases h
    refine drawsFrom_operation rfl fun v mem => ?_
    rwa [List.mem_singleton.1 mem]
  · cases h

theorem drawsFrom_invoke? {callee : String} {ts : List Tree} {t : Tree}
    (args : ∀ u ∈ ts, u.DrawsFrom clauses) (h : invoke? callee ts = some t) : t.DrawsFrom clauses := by
  rcases callee_cases callee with rfl | ⟨kind, rfl⟩ | ⟨function, rfl⟩ | ⟨hv, hk, hf⟩
  · cases ts with
    | nil => cases h
    | cons inner more =>
      cases more with
      | nil => exact drawsFrom_varying? (args inner List.mem_cons_self) h
      | cons _ _ => cases h
  · rw [invoke?_kind, construct?] at h
    split at h
    · cases h
      exact drawsFrom_operation rfl args
    · cases h
  · rw [invoke?_builtin, call?] at h
    obtain ⟨kind, -, rfl⟩ := Option.map_eq_some_iff.1 h
    exact drawsFrom_operation rfl args
  · rw [invoke?_unknown hv hk hf] at h
    cases h

end Tree

/-- All names stand for trees that draw from the clauses. -/
def NamesDrawFrom (clauses : List Clause) (names : String → Option Tree) : Prop :=
  ∀ name t, names name = some t → t.DrawsFrom clauses

namespace Expression

variable {names : String → Option Tree}

mutual

/-- Expression text adds no inputs to those of its names. -/
theorem drawsFrom (known : NamesDrawFrom clauses names) (e : Expression) {t : Tree}
    (h : e.tree? names = some t) : t.DrawsFrom clauses := by
  match e with
  | .numeral value =>
    rw [tree?] at h
    cases h
    exact Tree.drawsFrom_literal _
  | .name text offset =>
    rw [tree?] at h
    exact known text t h
  | .negate operand offset =>
    by_cases number : ∃ value, operand = .numeral value
    · obtain ⟨value, rfl⟩ := number
      rw [tree?] at h
      cases h
      exact Tree.drawsFrom_literal _
    · rw [tree?_negate (not_exists.1 number)] at h
      obtain ⟨u, hu, top⟩ := Option.bind_eq_some_iff.1 h
      exact Tree.drawsFrom_binary? (operand.drawsFrom known hu) (Tree.drawsFrom_literal _) top
  | .binary op left right offset =>
    rw [tree?] at h
    obtain ⟨l, hl, rest⟩ := Option.bind_eq_some_iff.1 h
    obtain ⟨r, hr, top⟩ := Option.bind_eq_some_iff.1 rest
    exact Tree.drawsFrom_binary? (left.drawsFrom known hl) (right.drawsFrom known hr) top
  | .call callee args offset =>
    rw [tree?] at h
    obtain ⟨ts, hts, top⟩ := Option.bind_eq_some_iff.1 h
    exact Tree.drawsFrom_invoke? (drawsFromAll known args hts) top

theorem drawsFromAll (known : NamesDrawFrom clauses names) (es : List Expression) {ts : List Tree}
    (h : treeAll? names es = some ts) : ∀ t ∈ ts, t.DrawsFrom clauses := by
  match es with
  | [] =>
    rw [treeAll?] at h
    cases h
    simp
  | e :: es =>
    rw [treeAll?] at h
    obtain ⟨t, ht, rest⟩ := Option.bind_eq_some_iff.1 h
    obtain ⟨us, hus, top⟩ := Option.bind_eq_some_iff.1 rest
    cases top
    exact List.forall_mem_cons.2 ⟨e.drawsFrom known ht, drawsFromAll known es hus⟩

end

end Expression

theorem sourceTree?_drawsFrom {names : String → Option Tree} {source : String} {t : Tree}
    (known : NamesDrawFrom clauses names) (h : sourceTree? names source = some t) :
    t.DrawsFrom clauses := by
  unfold sourceTree? at h
  split at h
  · next e _ => exact e.drawsFrom known h
  · cases h

/-- The tree of a clause draws from the names of its text and from the clause itself. -/
theorem Clause.drawsFrom {names : String → Option Tree} {c : Clause} {t : Tree}
    (known : NamesDrawFrom clauses names) (mem : c ∈ clauses) (h : c.tree? names = some t) :
    t.DrawsFrom clauses := by
  match c, mem, h with
  | .attribute name kind, mem, h =>
    rw [tree?] at h
    split at h
    · cases h
      exact Tree.drawsFrom_input mem rfl rfl
    · cases h
  | .uniform name kind, mem, h =>
    cases h
    exact Tree.drawsFrom_input mem rfl rfl
  | .definition d, _, h =>
    obtain ⟨u, hu, top⟩ := Option.bind_eq_some_iff.1 h
    have inner := sourceTree?_drawsFrom known hu
    split at top
    · exact Tree.drawsFrom_varying? inner top
    · cases top
      exact inner

/-- **The trees of a glossary draw from its clauses**, by induction along the clauses. -/
theorem Glosses.drawsFrom {g g' : Glossary} {more : List Clause} (h : Glosses g more g')
    (known : NamesDrawFrom clauses g.tree?) (sub : ∀ c ∈ more, c ∈ clauses) :
    NamesDrawFrom clauses g'.tree? := by
  induction h with
  | done g => exact known
  | @define g g' c more t declarable new tree rest ih =>
    rw [List.forall_mem_cons] at sub
    refine ih (fun name u found => ?_) sub.2
    rw [Glossary.tree?, List.lookup_cons] at found
    split at found
    · cases found
      exact Clause.drawsFrom known sub.1 tree
    · exact known name u found

end Draws

/-- The outputs of a document draw from its clauses. -/
theorem Document.Means.drawsFrom {doc : Document} {g : Glossary} {position colour : Tree}
    (h : doc.Means g position colour) :
    position.DrawsFrom doc.clauses ∧ colour.DrawsFrom doc.clauses := by
  have known : NamesDrawFrom doc.clauses g.tree? :=
    h.glossary.drawsFrom (fun name t found => by cases found) fun c mem => mem
  exact ⟨sourceTree?_drawsFrom known h.position, sourceTree?_drawsFrom known h.colour⟩

/-! ### The inputs of nodes -/

namespace Pool

variable {p : Pool} {clauses : List Clause} {a b id : Nat} {name : String}

/-- Below a node stand the subtrees of its tree. -/
theorem WellFormed.drawsFrom_child {t : Tree} (wf : p.WellFormed) (h : p.tree? a = some t)
    (draws : t.DrawsFrom clauses) (step : p.Child a b) :
    ∃ u, p.tree? b = some u ∧ u.DrawsFrom clauses := by
  cases draws with
  | @node kind operation top below =>
    obtain ⟨e, he, -, trees, -⟩ := tree?_eq_some_iff.1 h
    rw [Child, wf.childList_eq he] at step
    obtain ⟨u, mem, same⟩ := Node.exists_partner trees step
    exact ⟨u, same.symm, below u mem⟩

theorem WellFormed.drawsFrom_reaches {t : Tree} (wf : p.WellFormed) (h : p.tree? a = some t)
    (draws : t.DrawsFrom clauses) (path : p.Reaches a b) :
    ∃ u, p.tree? b = some u ∧ u.DrawsFrom clauses := by
  induction path with
  | refl => exact ⟨t, h, draws⟩
  | tail _ step ih =>
    obtain ⟨u, hu, inner⟩ := ih
    exact wf.drawsFrom_child hu inner step

/-- The clause that declares an input node. -/
def clause? (p : Pool) (id : Nat) : Option Clause := (p.node? id).bind (Clause.ofNode? (p.kind id))

theorem clause?_attribute (h : p.attributeName? id = some name) :
    p.clause? id = some (.attribute name (p.kind id)) := by
  rw [clause?, attributeName?_eq_some_iff.1 h]
  rfl

theorem clause?_uniform (h : p.uniformName? id = some name) :
    p.clause? id = some (.uniform name (p.kind id)) := by
  rw [clause?, uniformName?_eq_some_iff.1 h]
  rfl

theorem exists_clause (h : p.callerName? id = some name) : ∃ c, p.clause? id = some c ∧ c.name = name := by
  rcases callerName?_eq_some_iff.1 h with h | h
  · exact ⟨_, clause?_attribute h, rfl⟩
  · exact ⟨_, clause?_uniform h, rfl⟩

/-- The clause of a node is told by its tree. -/
theorem clause?_eq {kind : Kind} {operation : Node Tree} (h : p.tree? id = some (.node kind operation)) :
    p.clause? id = Clause.ofNode? kind operation := by
  obtain ⟨e, he, below, trees, rfl⟩ := tree?_eq_some_iff.1 h
  obtain ⟨n, hn, same⟩ := exists_node he below
  rw [clause?, hn, Option.bind_some, kind_eq he, ← Clause.ofNode?_map _ Fin.val, same,
    ← Clause.ofNode?_map _ p.tree?, trees, Clause.ofNode?_map]

/-- Two inputs with one clause are one node. -/
theorem WellFormed.clause?_injective {c : Clause} (wf : p.WellFormed) (ha : a < p.size) (hb : b < p.size)
    (h : p.clause? a = some c) (h' : p.clause? b = some c) : a = b := by
  obtain ⟨⟨kind, operation⟩, hta⟩ := wf.exists_tree ha
  obtain ⟨⟨kind', operation'⟩, htb⟩ := wf.exists_tree hb
  rw [clause?_eq hta] at h
  rw [clause?_eq htb] at h'
  obtain ⟨rfl, rfl⟩ := Clause.ofNode?_inj h h'
  exact wf.tree_injective hta htb

/-- The nodes that some roots reach draw from the clauses that the roots draw from. -/
theorem WellFormed.mem_clauses {roots : List Nat} {c : Clause} (wf : p.WellFormed)
    (draws : ∀ r ∈ roots, ∃ t, p.tree? r = some t ∧ t.DrawsFrom clauses) (used : p.Uses roots id)
    (h : p.clause? id = some c) : c ∈ clauses := by
  obtain ⟨r, hr, path⟩ := used
  obtain ⟨t, ht, top⟩ := draws r hr
  obtain ⟨u, hu, inner⟩ := wf.drawsFrom_reaches ht top path
  cases inner with
  | node top _ =>
    rw [clause?_eq hu] at h
    exact top c h

end Pool

/-! ### How assembly can end -/

namespace Document

/-- The attributes and uniforms that a program uses are those of a document, with their kinds, and different
ones have different names. -/
structure InputsOf (doc : Document) (p : Pool) (roots : List Nat) : Prop where
  attributes : ∀ id name, p.Uses roots id → p.attributeName? id = some name →
    (name, p.kind id) ∈ doc.attributes.entries
  uniforms : ∀ id name, p.Uses roots id → p.uniformName? id = some name →
    (name, p.kind id) ∈ doc.uniforms.entries
  declarable : ∀ id name, p.Uses roots id → p.callerName? id = some name →
    checkIdentifier name = .ok ()
  distinct : ∀ a b name, p.Uses roots a → p.Uses roots b → p.callerName? a = some name →
    p.callerName? b = some name → a = b

theorem attribute_mem_clauses {doc : Document} {name : String} {kind : Kind} :
    Clause.attribute name kind ∈ doc.clauses ↔ (name, kind) ∈ doc.attributes.entries := by
  simp [clauses]

theorem uniform_mem_clauses {doc : Document} {name : String} {kind : Kind} :
    Clause.uniform name kind ∈ doc.clauses ↔ (name, kind) ∈ doc.uniforms.entries := by
  simp [clauses]

/-- **The inputs of a document's program.**  They are clauses of the document; of two clauses with one name
there is only one, and one clause has one node. -/
theorem Means.inputsOf {doc : Document} {g : Glossary} {position colour : Tree} {p : Pool} {a b : Nat}
    (h : doc.Means g position colour) (wf : p.WellFormed) (ha : p.tree? a = some position)
    (hb : p.tree? b = some colour) : doc.InputsOf p [a, b] := by
  have draws : ∀ r ∈ [a, b], ∃ t, p.tree? r = some t ∧ t.DrawsFrom doc.clauses := by
    intro r mem
    rcases List.mem_cons.1 mem with rfl | mem
    · exact ⟨position, ha, h.drawsFrom.1⟩
    · rw [List.mem_singleton.1 mem]
      exact ⟨colour, hb, h.drawsFrom.2⟩
  have present : ∀ id, p.Uses [a, b] id → id < p.size := by
    rintro id ⟨r, hr, path⟩
    obtain ⟨t, ht, -⟩ := draws r hr
    exact path.lt_size (Pool.tree?_lt ht)
  refine ⟨fun id name used hn => ?_, fun id name used hn => ?_, fun id name used hn => ?_, ?_⟩
  · exact attribute_mem_clauses.1 (wf.mem_clauses draws used (Pool.clause?_attribute hn))
  · exact uniform_mem_clauses.1 (wf.mem_clauses draws used (Pool.clause?_uniform hn))
  · obtain ⟨c, hc, rfl⟩ := Pool.exists_clause hn
    exact (h.glossary.holds c (wf.mem_clauses draws used hc)).1
  · intro x y name ux uy hx hy
    obtain ⟨c, hc, rfl⟩ := Pool.exists_clause hx
    obtain ⟨d, hd, same⟩ := Pool.exists_clause hy
    obtain rfl : d = c := List.inj_on_of_nodup_map h.glossary.names_nodup.1
      (wf.mem_clauses draws uy hd) (wf.mem_clauses draws ux hc) same
    exact wf.clause?_injective (present x ux) (present y uy) hc hd

end Document

namespace Pool

/-- How assembly ends if nothing is wrong with the names of inputs but that they may be reserved: with
source, at a reserved name that is used, at a varying that the vertex stage would read, or at an attribute
that the fragment stage would read outside a varying. -/
inductive LateOutcome (p : Pool) (position colour : Nat) : Except Failure ShaderPair → Prop where
  | source (pair : ShaderPair) : LateOutcome p position colour (.ok pair)
  | reservedName {id : Nat} {name : String} : p.Uses [position, colour] id →
      p.callerName? id = some name → name ∈ reservedNames →
      LateOutcome p position colour (.error (.ofCause (.nameInUse name)))
  | varyingInVertex {id : Nat} {name : String} : p.IsVarying id →
      p.InStage (p.vertexRoots position colour) id →
      LateOutcome p position colour (.error (.ofCause (.varyingInVertex name)))
  | attributeInFragment {id : Nat} {name : String} : p.attributeName? id = some name →
      p.InStage [colour] id → LateOutcome p position colour (.error (.ofCause (.attributeInFragment name)))

theorem LateOutcome.family {p : Pool} {position colour : Nat} {result : Except Failure ShaderPair}
    {f : Failure} (h : p.LateOutcome position colour result) (failed : result = .error f) :
    f.family = .nameConflict ∨ f.family = .stageViolation := by
  cases h with
  | source pair => cases failed
  | reservedName _ _ _ =>
    cases failed
    exact .inl rfl
  | varyingInVertex _ _ | attributeInFragment _ _ =>
    cases failed
    exact .inr rfl

end Pool

/-- The program of a document ends in one of these ways. -/
theorem Document.InputsOf.lateOutcome {doc : Document} {p : Pool} {position colour : Nat}
    (h : doc.InputsOf p [position, colour]) (wf : p.WellFormed)
    (present : ∀ r ∈ [position, colour], r < p.size) (options : Options) :
    p.LateOutcome position colour (p.assemble position colour options) := by
  rcases p.assemble_cases wf present options with ⟨f, refused, run⟩ |
    ⟨names, bound, ⟨entry, text, stray, -, run⟩ | ⟨-, ⟨entry, text, stray, named, run⟩ |
      ⟨-, varyings, pair, -, run⟩⟩⟩
  · -- the names may be declared and are different, so one of them was in use from the start
    have keys := Pool.nodup_callerNames_keys p [position, colour]
    have names : ((p.inputs [position, colour]).callerNames.map (·.2)).Nodup := by
      refine (List.nodup_map_iff_inj_on keys.of_map).2 ?_
      rintro ⟨x, n⟩ hx ⟨y, m⟩ hy same
      obtain rfl : n = m := same
      obtain ⟨ux, hx⟩ := Pool.mem_callerNames.1 hx
      obtain ⟨uy, hy⟩ := Pool.mem_callerNames.1 hy
      rw [h.distinct x y n ux uy hx hy]
    have declarable : ∀ entry ∈ (p.inputs [position, colour]).callerNames,
        checkIdentifier entry.2 = .ok () := by
      rintro ⟨id, name⟩ mem
      obtain ⟨used, hn⟩ := Pool.mem_callerNames.1 mem
      exact h.declarable id name used hn
    obtain ⟨⟨id, name⟩, mem, taken, rfl⟩ := Binder.bindAll_error_used (fun _ _ => rfl) keys names
      declarable (Pool.bind_inputs_error refused).1
    obtain ⟨used, hn⟩ := Pool.mem_callerNames.1 mem
    rw [run]
    exact .reservedName used hn taken
  · have mem := List.mem_of_find?_eq_some stray
    have read := List.find?_some stray
    rw [List.contains_iff_mem, Pool.mem_stageInputs] at read
    rw [run]
    exact .varyingInVertex ⟨_, (Pool.mem_varyings.1 mem).2⟩ read.1
  · obtain ⟨used, ha⟩ := Pool.mem_attributes.1 (List.mem_of_find?_eq_some stray)
    have read := List.find?_some stray
    rw [List.contains_iff_mem, Pool.mem_stageInputs] at read
    have same := (Pool.named_of_bind bound).callerName used (Pool.callerName?_eq_some_iff.2 (.inl ha))
    rw [named] at same
    cases same
    rw [run]
    exact .attributeInFragment ha read.1
  · rw [run]
    exact .source pair

namespace Session

variable {s t : Session} {pool pool' : Nat} {doc doc' : Document} {program program' : Program}
  {w w' : Workspace}

/-- What is known of a document that was built in a pool of a reachable session. -/
theorem Reachable.means_of_build (reachable : s.Reachable) (here : s.HasPool pool)
    (built : doc.build pool s.workspace = .ok program w) :
    s.workspace.Grows w ∧ program.pool = pool ∧ ∃ g position colour, doc.Means g position colour ∧
      (w.pool pool).tree? program.position = some position ∧
      (w.pool pool).tree? program.colour = some colour :=
  (Build.outcome_document doc reachable.valid.wellFormed here).of_ok built

/-- **A document that is built fails later for a stated reason only.**  Whatever the pool held before, the
outputs are nodes of the pool of kind `vec4`; every attribute and uniform that they use is one that the
document declares with that kind, and no two have one name.  With any options the program is assembled,
or it uses an input whose name is reserved, or the vertex stage would read a varying, or the fragment
stage an attribute outside a varying; so the failure is a conflict of names or one of stages. -/
theorem Reachable.built_assembles (reachable : s.Reachable) (here : s.HasPool pool)
    (built : doc.build pool s.workspace = .ok program w) :
    program.pool = pool ∧ w.Has pool program.position .vec4 ∧ w.Has pool program.colour .vec4 ∧
    doc.InputsOf (w.pool pool) [program.position, program.colour] ∧
    ∀ options, (w.pool pool).LateOutcome program.position program.colour
        (program.assemble w options) ∧
      ∀ f, program.assemble w options = .error f →
        f.family = .nameConflict ∨ f.family = .stageViolation := by
  have held := ((Build.ensures_document doc reachable.valid.wellFormed here).grows_ok built).2
  obtain ⟨grown, home, g, position, colour, means, hp, hc⟩ := reachable.means_of_build here built
  have wf := grown.wellFormed pool
  have inputs := means.inputsOf wf hp hc
  have present : ∀ r ∈ [program.position, program.colour], r < (w.pool pool).size := by
    intro r mem
    rcases List.mem_cons.1 mem with rfl | mem
    · exact Pool.tree?_lt hp
    · rw [List.mem_singleton.1 mem]
      exact Pool.tree?_lt hc
  have outcome : ∀ options, (w.pool pool).LateOutcome program.position program.colour
      (program.assemble w options) := by
    intro options
    rw [Program.assemble, home]
    exact inputs.lateOutcome wf present options
  exact ⟨home, home ▸ held.position, home ▸ held.colour, inputs,
    fun options => ⟨outcome options, fun f failed => (outcome options).family failed⟩⟩

end Session

/-- A document with a definition that is interpolated, one that is not, and one that uses both. -/
def Document.lamp : Document where
  attributes := InputTable.empty.insert "corner" .vec4
  uniforms := InputTable.empty.insert "tint" .vec4
  definitions :=
    [⟨"lit", "corner + tint", true⟩, ⟨"shade", "tint * 0.5", false⟩, ⟨"glow", "lit * -shade", false⟩]
  position := "corner"
  colour := "glow + 2.0*shade"
  options := .standard

/-- Whether a document is built in an empty pool. -/
def Document.isBuilt (doc : Document) : Bool :=
  match doc.build 0 (Session.start 1).workspace with
  | .ok _ _ => true
  | .error _ _ => false

theorem Document.exists_of_isBuilt {doc : Document} (h : doc.isBuilt = true) :
    ∃ program w, doc.build 0 (Session.start 1).workspace = .ok program w := by
  unfold isBuilt at h
  split at h
  · next program w run => exact ⟨program, w, run⟩
  · cases h

theorem Document.isBuilt_lamp : lamp.isBuilt = true := by decide +kernel

namespace Session

theorem reachable_start (pools : Nat) : (start pools).Reachable := ⟨pools, .refl⟩

theorem hasPool_start : (start 1).HasPool 0 := Nat.one_pos

/-- The lamp is built in an empty pool, and what it uses are its own inputs. -/
theorem lamp_assembles : ∃ program w, Document.lamp.build 0 (start 1).workspace = .ok program w ∧
    w.Has 0 program.position .vec4 ∧ w.Has 0 program.colour .vec4 ∧
    Document.lamp.InputsOf (w.pool 0) [program.position, program.colour] ∧
    ∀ options, (w.pool 0).LateOutcome program.position program.colour (program.assemble w options) := by
  obtain ⟨program, w, built⟩ := Document.exists_of_isBuilt Document.isBuilt_lamp
  obtain ⟨-, position, colour, inputs, outcome⟩ :=
    (reachable_start 1).built_assembles hasPool_start built
  exact ⟨program, w, built, position, colour, inputs, fun options => (outcome options).1⟩

end Session

/-! ### Documents with the same source -/

/-- The second document has the same outputs and options as the first, all its inputs and definitions, the
definitions in any order, and possibly more of both. -/
structure Document.Rearranges (doc doc' : Document) : Prop where
  attributes : ∀ e ∈ doc.attributes.entries, e ∈ doc'.attributes.entries
  uniforms : ∀ e ∈ doc.uniforms.entries, e ∈ doc'.uniforms.entries
  definitions : ∃ added, doc'.definitions.Perm (doc.definitions ++ added)
  outputs : doc'.position = doc.position ∧ doc'.colour = doc.colour
  options : doc'.options = doc.options

namespace Document

variable {doc doc' : Document}

theorem Rearranges.mem_clauses (h : doc.Rearranges doc') : ∀ c ∈ doc.clauses, c ∈ doc'.clauses := by
  obtain ⟨added, perm⟩ := h.definitions
  intro c mem
  simp only [clauses, List.mem_append, List.mem_map] at mem ⊢
  rcases mem with ⟨e, he, rfl⟩ | ⟨e, he, rfl⟩ | ⟨d, hd, rfl⟩
  · exact .inl ⟨e, h.attributes e he, rfl⟩
  · exact .inr (.inl ⟨e, h.uniforms e he, rfl⟩)
  · exact .inr (.inr ⟨d, perm.mem_iff.2 (List.mem_append_left _ hd), rfl⟩)

end Document

namespace Session

variable {s t : Session} {pool pool' : Nat} {doc doc' : Document} {program program' : Program}
  {w w' : Workspace}

/-- **Neither the order of definitions nor unused entries show in the source.**  Two documents with the same
outputs and options are built, each in some pool; the second one has the inputs and definitions of the
first, in any order, and others.  The glossary of the second satisfies every clause of the first, so the
outputs are the same trees.  Then both have the same source, or fail with the same failure.  That no
text of the first document uses the other names need not be asked, since the first document is built. -/
theorem Reachable.rearranged_assembles (reachable : s.Reachable) (reachable' : t.Reachable)
    (here : s.HasPool pool) (here' : t.HasPool pool')
    (built : doc.build pool s.workspace = .ok program w)
    (built' : doc'.build pool' t.workspace = .ok program' w') (h : doc.Rearranges doc') :
    program.assemble w doc.options = program'.assemble w' doc'.options := by
  obtain ⟨grown, home, g, position, colour, means, hp, hc⟩ := reachable.means_of_build here built
  obtain ⟨grown', home', g', position', colour', means', hp', hc'⟩ :=
    reachable'.means_of_build here' built'
  obtain ⟨rfl, rfl⟩ := means.trees_eq means' h.mem_clauses h.outputs
  rw [Program.assemble, Program.assemble, home, home', h.options]
  exact Pool.assemble_twin (grown.wellFormed pool) (grown'.wellFormed pool') ⟨position, hp, hp'⟩
    ⟨colour, hc, hc'⟩ doc.options

end Session

/-- The lamp with its definitions in another order, and with a uniform and a definition that its outputs do
not use. -/
def Document.busyLamp : Document where
  attributes := Document.lamp.attributes
  uniforms := Document.lamp.uniforms.insert "time" .float
  definitions :=
    [⟨"shade", "tint * 0.5", false⟩, ⟨"wave", "sin(time)", false⟩, ⟨"lit", "corner + tint", true⟩,
      ⟨"glow", "lit * -shade", false⟩]
  position := "corner"
  colour := "glow + 2.0*shade"
  options := .standard

theorem Document.isBuilt_busyLamp : busyLamp.isBuilt = true := by decide +kernel

theorem Document.lamp_rearranges : lamp.Rearranges busyLamp where
  attributes := by decide
  uniforms := by decide +kernel
  definitions := ⟨[⟨"wave", "sin(time)", false⟩], by decide +kernel⟩
  outputs := ⟨rfl, rfl⟩
  options := rfl

namespace Session

/-- Both lamps have the same source. -/
theorem lamps_assemble : ∃ program w program' w',
    Document.lamp.build 0 (start 1).workspace = .ok program w ∧
    Document.busyLamp.build 0 (start 1).workspace = .ok program' w' ∧
    Document.lamp.Rearranges Document.busyLamp ∧
    program.assemble w Document.lamp.options = program'.assemble w' Document.busyLamp.options := by
  obtain ⟨program, w, built⟩ := Document.exists_of_isBuilt Document.isBuilt_lamp
  obtain ⟨program', w', built'⟩ := Document.exists_of_isBuilt Document.isBuilt_busyLamp
  exact ⟨program, w, program', w', built, built', Document.lamp_rearranges,
    (reachable_start 1).rearranged_assembles (reachable_start 1) hasPool_start hasPool_start built built'
      Document.lamp_rearranges⟩

end Session

end ShaderDag
