import ShaderDag.Proofs.Session

/-!
# What reachable pools hold

Callers add nodes with and without static kinds, from text, from documents, and by mixing pools.
Whatever they do, a pool holds every tree at most once, and every node has the kind that the signature
tables give it.

* `Pool.WellFormed.find?_eq_some_iff_tree` — nodes are found by their trees;
* `Pool.Canonical` — numbers stand for trees one to one, and grow from children to parents;
* `Kind.Fits.exists_uniform` — no operation gives a sampler;
* `Session.Reachable.canonical_pool` — every pool of a reachable session is canonical;
* `Session.Reachable.kinds_sound` — its nodes and handles have the right kinds.
-/

namespace ShaderDag

/-! ### Nodes by their trees -/

namespace Pool

variable {p : Pool} {id : Nat} {kind : Kind}

/-- Operations on nodes of a pool are equal if they are on equal trees. -/
theorem WellFormed.node_eq (wf : p.WellFormed) {n m : Node Nat} (present : ∀ c ∈ n.children, c < p.size)
    (same : n.map p.tree? = m.map p.tree?) : n = m := by
  have children : n.map id = m.map id := by
    refine Node.map_eq_map_of (fun c hc d _ hcd => ?_) same
    obtain ⟨t, ht⟩ := wf.exists_tree (present c hc)
    exact wf.tree_injective ht (hcd ▸ ht)
  rwa [Node.map_id', Node.map_id'] at children

/-- **A node is found by its tree.**  Looking up an operation gives the node whose tree is the operation
on the trees of its children, if the pool holds one. -/
theorem WellFormed.find?_eq_some_iff_tree (wf : p.WellFormed) {node : Node Nat} {operation : Node Tree}
    (same : node.map p.tree? = operation.map some) :
    p.find? kind node = some id ↔ p.tree? id = some (.node kind operation) := by
  rw [wf.find?_eq_some_iff, tree?_eq_some_iff]
  constructor
  · rintro ⟨e, he, hk, rfl⟩
    exact ⟨e, he, wf.descending id e he, same, hk⟩
  · rintro ⟨e, he, below, trees, hk⟩
    refine ⟨e, he, hk, wf.node_eq (fun c hc => ?_) (trees.trans same.symm)⟩
    exact Nat.lt_trans (below c hc) (entry?_lt he)

/-- Numbers stand for trees one to one; children have smaller numbers; operations are found by their
trees; and the attribute or uniform of a name and kind is found exactly where it is. -/
structure Canonical (p : Pool) : Prop where
  unfolds : ∀ id < p.size, ∃ t, p.tree? id = some t
  eq_iff : ∀ a < p.size, ∀ b < p.size, a = b ↔ p.tree? a = p.tree? b
  child_lt : ∀ id e, p.entry? id = some e → ∀ c ∈ e.node.children, c < id
  finds : ∀ kind (node : Node Nat) (operation : Node Tree) id,
    node.map p.tree? = operation.map some →
      (p.find? kind node = some id ↔ p.tree? id = some (.node kind operation))
  findsAttribute : ∀ name kind id, p.find? kind (.attribute name) = some id ↔
    ∃ e, p.entry? id = some e ∧ e.kind = kind ∧ e.node = .attribute name
  findsUniform : ∀ name kind id, p.find? kind (.uniform name) = some id ↔
    ∃ e, p.entry? id = some e ∧ e.kind = kind ∧ e.node = .uniform name

end Pool

/-! ### Kinds of results -/

theorem Operator.result?_ne_sampler2D (op : Operator) (lhs rhs : Kind) :
    op.result? lhs rhs ≠ some .sampler2D := by
  intro h
  unfold result? at h
  split at h
  · cases h
  · next plain =>
    -- every other kind of a result is the kind of an operand, or a vector
    rw [not_or] at plain
    grind

theorem Builtin.result?_ne_sampler2D (function : Builtin) (args : List Kind) :
    function.result? args ≠ some .sampler2D := by
  -- a result is a fixed kind, or that of an argument on which functions are defined by component
  have excluded : Kind.isGenType .sampler2D = false := rfl
  fun_cases result? function args <;> grind

/-- Only uniforms are samplers: no operator, function or constructor gives one, and samplers are neither
interpolated nor read per vertex. -/
theorem Kind.Fits.exists_uniform {n : Node Kind} (fits : Kind.sampler2D.Fits n) :
    ∃ name, n = .uniform name := by
  match n, fits with
  | .operator op lhs rhs, fits => exact absurd fits (op.result?_ne_sampler2D lhs rhs)
  | .call function args, fits => exact absurd fits (function.result?_ne_sampler2D args)
  | .construct args, fits => cases fits
  | .varying inner, fits =>
    obtain ⟨rfl, interpolated⟩ := fits
    cases interpolated
  | .attribute name, fits => cases fits
  | .uniform name, _ => exact ⟨name, rfl⟩
  | .literal value, fits => cases fits

theorem Pool.WellFormed.exists_uniform {p : Pool} {id : Nat} {e : Entry} (wf : p.WellFormed)
    (he : p.entry? id = some e) (sampler : e.kind = .sampler2D) : ∃ name, e.node = .uniform name := by
  have fits := wf.kinded id e he
  rw [sampler] at fits
  obtain ⟨name, shape⟩ := fits.exists_uniform
  cases hn : e.node with
  | uniform name => exact ⟨name, rfl⟩
  | _ =>
    rw [hn] at shape
    cases shape

/-! ### Reachable sessions -/

namespace Session

variable {s : Session}

/-- **Pools are canonical.**  However a pool came about, two of its numbers are equal exactly if they
stand for the same tree: the same kinds, operations, names, bit patterns of literals and children in
order.  Children have smaller numbers than their parents.  An operation is found by its tree; in particular
an attribute or a uniform is found by name and kind exactly if the pool holds it. -/
theorem Reachable.canonical_pool (reachable : s.Reachable) (pool : Nat) :
    (s.workspace.pool pool).Canonical := by
  have wf := reachable.valid.wellFormed pool
  refine ⟨fun id present => wf.exists_tree present, fun a ha b _ => ⟨?_, ?_⟩, wf.descending,
    fun _ _ _ _ same => wf.find?_eq_some_iff_tree same, fun _ _ _ => wf.find?_eq_some_iff,
    fun _ _ _ => wf.find?_eq_some_iff⟩
  · rintro rfl
    rfl
  · intro same
    obtain ⟨t, ht⟩ := wf.exists_tree ha
    exact wf.tree_injective ht (same ▸ ht)

/-- The session in which the two zeros were added to one pool. -/
def zeros : Session :=
  ⟨⟨#[(Pool.empty.withNode .float (.literal ⟨0⟩)).withNode .float (.literal ⟨0x80000000⟩)]⟩,
    [⟨0, 1, .float⟩, ⟨0, 0, .float⟩], []⟩

theorem reachable_zeros : zeros.Reachable := by
  have start : Reachable ⟨⟨#[Pool.empty]⟩, [], []⟩ := ⟨1, .refl⟩
  have first := start.handle (.addConstant ⟨0⟩ Nat.one_pos) (Build.intern_new (by decide +kernel))
  exact first.handle (.addConstant ⟨0x80000000⟩ Nat.one_pos) (Build.intern_new (by decide +kernel))

/-- The two zeros have different trees. -/
theorem zeros_apart : (zeros.workspace.pool 0).tree? 0 ≠ (zeros.workspace.pool 0).tree? 1 := by
  have canonical := reachable_zeros.canonical_pool 0
  intro same
  exact Nat.zero_ne_one ((canonical.eq_iff 0 (by decide) 1 (by decide)).2 same)

/-- **Kinds are sound.**  However a pool came about, the kind of every node follows from the signature
tables, only known functions are called, and only uniforms are samplers; and a handle has the kind of
its node. -/
theorem Reachable.kinds_sound (reachable : s.Reachable) :
    (∀ pool id e, Pool.entry? (s.workspace.pool pool) id = some e →
      e.kind.Fits (e.node.map (s.workspace.pool pool).kind) ∧
      (∀ function args, e.node = .call function args → function.name ∈ Builtin.names) ∧
      (e.kind = .sampler2D → ∃ name, e.node = .uniform name)) ∧
    ∀ h ∈ s.handles, h.id < (s.workspace.pool h.pool).size ∧
      (s.workspace.pool h.pool).kind h.id = h.kind := by
  have valid := reachable.valid
  refine ⟨fun pool id e he => ⟨?_, ?_, ?_⟩, fun h hh => ?_⟩
  · exact (valid.wellFormed pool).kinded id e he
  · intro function _ _
    cases function <;> decide
  · exact (valid.wellFormed pool).exists_uniform he
  · exact ⟨(valid.handles h hh).lt, (valid.handles h hh).kind_eq⟩

/-- In the example session the product is of two vectors, and its handle says so. -/
theorem sample_kinds_sound :
    (∀ id e, Pool.entry? (Pool.sample .empty) id = some e →
      e.kind.Fits (e.node.map (Pool.sample .empty).kind)) ∧ (Pool.sample .empty).kind 3 = .vec4 := by
  obtain ⟨nodes, handles⟩ := reachable_sample_empty.kinds_sound
  exact ⟨fun id e he => (nodes 0 id e he).1, (handles ⟨0, 3, .vec4⟩ List.mem_cons_self).2⟩

end Session

end ShaderDag
