import ShaderDag.Graph.Table
import ShaderDag.Proofs.Pool

/-!
# Tables keep their pools

A table of names and nodes goes two ways.  As long as the two ways fit together, the table answers as the
pool does that it keeps, and stays such a table.

* `Inverse` — two tables that fit together, with `Inverse.insert`;
* `Interner.WellFormed`, `NodeTable.WellFormed` — the tables of names and of nodes fit together, and every
  node has its name;
* `Interner.store_eq_iff` — a node is stored in one way;
* `NodeTable.WellFormed.find?_view`, `NodeTable.WellFormed.make`, `NodeTable.WellFormed.adopt` — looking
  up, adding and adopting nodes is the same in the table and in its pool;
* `NodeTable.WellFormed.findAttribute?_eq`, `NodeTable.WellFormed.findUniform?_eq` — so is looking up an
  input.
-/

namespace ShaderDag

/-! ### Tables that go two ways -/

section Inverse

variable {κ : Type} [BEq κ] [LawfulBEq κ] {ids : List (κ × Nat)} {keys : Array κ}

/-- The number of a key is the place where the key stands. -/
def Inverse (ids : List (κ × Nat)) (keys : Array κ) : Prop :=
  ∀ key id, ids.lookup key = some id ↔ keys[id]? = some key

omit [LawfulBEq κ] in
theorem Inverse.nil : Inverse ([] : List (κ × Nat)) #[] := by simp [Inverse]

/-- A new key goes behind all others. -/
theorem Inverse.insert {key : κ} (inverse : Inverse ids keys) (new : ids.lookup key = none) :
    Inverse ((key, keys.size) :: ids) (keys.push key) := by
  intro other id
  rw [List.lookup_cons, Array.getElem?_push]
  by_cases same : other = key
  · subst same
    have absent : keys[id]? ≠ some other := by
      rw [Ne, ← inverse other id, new]
      exact nofun
    by_cases last : id = keys.size
    · simp [last]
    · simp [last, Ne.symm last, absent]
  · have last : keys[keys.size]? = none := Array.getElem?_eq_none (Nat.le_refl _)
    rw [beq_eq_false_iff_ne.2 same, inverse other id]
    split
    · next here =>
      rw [here, last]
      simp [Ne.symm same]
    · rfl

end Inverse

/-! ### Names -/

namespace Interner

variable {names names' : Interner} {name : String} {symbol : Nat} {stored : StoredNode} {node : Node Nat}

/-- Every name is stored once, and is found. -/
def WellFormed (names : Interner) : Prop := Inverse names.ids names.names

theorem wellFormed_empty : empty.WellFormed := Inverse.nil

/-- Later names: all earlier ones have kept their numbers. -/
def Extends (names names' : Interner) : Prop :=
  ∀ symbol name, names.name? symbol = some name → names'.name? symbol = some name

theorem Extends.refl (names : Interner) : names.Extends names := fun _ _ known => known

theorem WellFormed.lookup?_eq_some_iff (wf : names.WellFormed) :
    names.lookup? name = some symbol ↔ names.name? symbol = some name := wf name symbol

/-- A name that is stored has its old number. -/
theorem WellFormed.intern_known (wf : names.WellFormed) (known : names.name? symbol = some name) :
    names.intern name = (symbol, names) := by
  rw [intern, wf.lookup?_eq_some_iff.2 known]

/-- **Storing a name.**  The tables of names still fit together, no name is lost, and this one has its
number. -/
theorem WellFormed.intern (wf : names.WellFormed) (name : String) :
    (names.intern name).2.WellFormed ∧ names.Extends (names.intern name).2 ∧
      name? (names.intern name).2 (names.intern name).1 = some name := by
  cases found : names.lookup? name with
  | some symbol =>
    have known := wf.lookup?_eq_some_iff.1 found
    rw [wf.intern_known known]
    exact ⟨wf, .refl names, known⟩
  | none =>
    rw [Interner.intern, found]
    refine ⟨Inverse.insert wf found, fun symbol other known => ?_, Array.getElem?_push_size⟩
    obtain ⟨here, -⟩ := Array.getElem?_eq_some_iff.1 known
    exact (Array.getElem?_push_lt here).trans ((Array.getElem?_eq_getElem here).symm.trans known)

/-! ### Stored nodes -/

theorem Extends.resolve? (grown : names.Extends names') (known : stored.resolve? names = some node) :
    stored.resolve? names' = some node := by
  cases stored with
  | call function args =>
    simp only [StoredNode.resolve?, Option.bind_eq_bind, Option.bind_eq_some_iff] at known ⊢
    obtain ⟨name, named, rest⟩ := known
    exact ⟨name, grown function name named, rest⟩
  | «attribute» name | uniform name =>
    obtain ⟨text, named, same⟩ := Option.map_eq_some_iff.1 known
    exact Option.map_eq_some_iff.2 ⟨text, grown name text named, same⟩
  | operator | construct | varying | literal => exact known

/-- **Storing a node.**  The names are kept, and the stored node resolves to the node. -/
theorem WellFormed.store (wf : names.WellFormed) (node : Node Nat) :
    (names.store node).2.WellFormed ∧ names.Extends (names.store node).2 ∧
      (names.store node).1.resolve? (names.store node).2 = some node := by
  cases node with
  | call function args =>
    obtain ⟨wf', grown, named⟩ := wf.intern function.name
    refine ⟨wf', grown, ?_⟩
    simp [Interner.store, StoredNode.resolve?, named, Builtin.ofName?_name]
  | «attribute» name | uniform name =>
    obtain ⟨wf', grown, named⟩ := wf.intern name
    exact ⟨wf', grown, congrArg (Option.map _) named⟩
  | operator | construct | varying | literal => exact ⟨wf, .refl names, rfl⟩

/-- **A node is stored in one way.** -/
theorem WellFormed.store_eq_iff (wf : names.WellFormed) :
    names.store node = (stored, names) ↔ stored.resolve? names = some node := by
  constructor
  · intro same
    have resolved := (wf.store node).2.2
    rwa [same] at resolved
  · intro resolved
    cases stored with
    | call function args =>
      simp only [StoredNode.resolve?, Option.bind_eq_bind, Option.bind_eq_some_iff] at resolved
      obtain ⟨name, named, builtin, spelled, same⟩ := resolved
      cases same
      rw [Builtin.ofName?_eq_some_iff.1 spelled] at named
      rw [Interner.store, wf.intern_known named]
      rfl
    | «attribute» name | uniform name =>
      obtain ⟨text, named, same⟩ := Option.map_eq_some_iff.1 resolved
      cases same
      rw [Interner.store, wf.intern_known named]
      rfl
    | operator | construct | varying | literal =>
      cases resolved
      rfl

theorem WellFormed.resolve?_inj (wf : names.WellFormed) {stored' : StoredNode}
    (here : stored.resolve? names = some node) (there : stored'.resolve? names = some node) :
    stored = stored' :=
  congrArg Prod.fst ((wf.store_eq_iff.2 here).symm.trans (wf.store_eq_iff.2 there))

end Interner

/-! ### Nodes -/

namespace NodeTable

variable {t : NodeTable} {kind : Kind} {node : Node Nat} {stored : StoredNode} {id : Nat}

/-- Names and nodes are stored once and are found, and every node has its name. -/
structure WellFormed (t : NodeTable) : Prop where
  names : t.names.WellFormed
  nodes : Inverse t.ids (t.entries.map (·.key))
  resolved : ∀ e ∈ t.entries, ∃ node, e.node.resolve? t.names = some node

theorem wellFormed_empty : empty.WellFormed :=
  ⟨Interner.wellFormed_empty, by simpa [empty] using Inverse.nil, by simp [empty]⟩

@[simp] theorem view_empty : view empty = .empty := by simp [view, empty, Pool.empty]

@[simp] theorem entry?_view (t : NodeTable) (id : Nat) :
    t.view.entry? id = t.entries[id]?.map (·.view t.names) := Array.getElem?_map

@[simp] theorem size_view (t : NodeTable) : t.view.size = t.entries.size := Array.size_map

@[simp] theorem digest_view (t : NodeTable) : t.view.digest = t.digest := by
  funext id
  rw [Pool.digest, entry?_view, Option.map_map]
  rfl

theorem WellFormed.exists_entry (wf : t.WellFormed) {e : Entry} (he : t.view.entry? id = some e) :
    ∃ s, t.entries[id]? = some s ∧ s.kind = e.kind ∧ s.node.resolve? t.names = some e.node := by
  rw [entry?_view] at he
  obtain ⟨s, hs, rfl⟩ := Option.map_eq_some_iff.1 he
  obtain ⟨node, resolved⟩ := wf.resolved s (Array.mem_of_getElem? hs)
  exact ⟨s, hs, rfl, by simp [StoredEntry.view, resolved]⟩

/-- The number of a stored node is that of the entry which the pool has for the node. -/
theorem WellFormed.lookup_eq_some_iff (wf : t.WellFormed) (resolved : stored.resolve? t.names = some node) :
    t.ids.lookup (kind, stored) = some id ↔
      ∃ e, t.view.entry? id = some e ∧ e.kind = kind ∧ e.node = node := by
  rw [wf.nodes, Array.getElem?_map, Option.map_eq_some_iff]
  constructor
  · rintro ⟨s, hs, same⟩
    cases same
    exact ⟨s.view t.names, by rw [entry?_view, hs]; rfl, rfl, by simp [StoredEntry.view, resolved]⟩
  · rintro ⟨e, he, rfl, rfl⟩
    obtain ⟨s, hs, kinds, known⟩ := wf.exists_entry he
    exact ⟨s, hs, Prod.ext kinds (wf.names.resolve?_inj known resolved)⟩

theorem WellFormed.distinct_view (wf : t.WellFormed) : t.view.Distinct := by
  intro a b e f he hf kinds nodes
  obtain ⟨s, -, -, known⟩ := wf.exists_entry he
  have first := (wf.lookup_eq_some_iff known).2 ⟨e, he, rfl, rfl⟩
  have second := (wf.lookup_eq_some_iff known).2 ⟨f, hf, kinds.symm, nodes.symm⟩
  exact Option.some.inj (first.symm.trans second)

/-- **A node is found in the table under its number in the pool.** -/
theorem WellFormed.find?_view (wf : t.WellFormed) (kind : Kind)
    (resolved : stored.resolve? t.names = some node) :
    t.view.find? kind node = t.ids.lookup (kind, stored) :=
  Option.ext fun _ => wf.distinct_view.find?_eq_some_iff.trans (wf.lookup_eq_some_iff resolved).symm

/-- A table and its number agree with a pool and its number: it is the table's pool, and the numbers are
equal. -/
def Agrees {α : Type} (result : α × NodeTable) (answer : α × Pool) : Prop :=
  result.2.WellFormed ∧ answer = (result.1, result.2.view)

theorem WellFormed.intern (wf : t.WellFormed) (kind : Kind) (resolved : stored.resolve? t.names = some node) :
    Agrees (t.intern kind stored) (t.view.intern kind node) := by
  have found := wf.find?_view kind resolved
  cases looked : t.ids.lookup (kind, stored) with
  | some id =>
    rw [NodeTable.intern, Pool.intern, found, looked]
    exact ⟨wf, rfl⟩
  | none =>
    rw [NodeTable.intern, Pool.intern, found, looked]
    refine ⟨⟨wf.names, ?_, ?_⟩, ?_⟩
    · simpa [StoredEntry.key] using wf.nodes.insert looked
    · intro e he
      rcases Array.mem_push.1 he with old | rfl
      · exact wf.resolved e old
      · exact ⟨node, resolved⟩
    · have entry : StoredEntry.view t.names ⟨kind, stored, t.digestOf kind stored⟩ =
          ⟨kind, node, Node.digest kind (node.map t.view.digest)⟩ := by
        simp [StoredEntry.view, digestOf, resolved]
      exact Prod.ext (size_view t) (by simp only [view, Array.map_push, entry])

/-- More names do not change the nodes. -/
theorem WellFormed.withNames {names : Interner} (wf : t.WellFormed) (wfNames : names.WellFormed)
    (grown : t.names.Extends names) :
    WellFormed { t with names } ∧ view { t with names } = t.view := by
  refine ⟨⟨wfNames, wf.nodes, fun e he => ?_⟩, congrArg Pool.mk (Array.map_congr_left fun e he => ?_)⟩
  · obtain ⟨node, resolved⟩ := wf.resolved e he
    exact ⟨node, grown.resolve? resolved⟩
  · obtain ⟨node, resolved⟩ := wf.resolved e he
    rw [StoredEntry.view, StoredEntry.view, resolved, grown.resolve? resolved]

/-- **Adding a node.**  The tables of names and of nodes still fit together, and the pool has grown as a
pool does. -/
theorem WellFormed.make (wf : t.WellFormed) (kind : Kind) (node : Node Nat) :
    Agrees (t.make kind node) (t.view.intern kind node) := by
  obtain ⟨wfNames, grown, resolved⟩ := wf.names.store node
  obtain ⟨wf', same⟩ := wf.withNames wfNames grown
  rw [← same]
  exact wf'.intern kind resolved

/-! ### Adoption -/

theorem WellFormed.adoptEntry (wf : t.WellFormed) (source : NodeTable) (moved : List (Nat × Nat)) (id : Nat) :
    Agrees (adoptEntry source (moved, t) id) (Pool.adoptEntry source.view (moved, t.view) id) := by
  simp only [NodeTable.adoptEntry, Pool.adoptEntry, entry?_view]
  cases source.entries[id]? with
  | none => exact ⟨wf, rfl⟩
  | some e =>
    obtain ⟨wf', made⟩ := wf.make e.kind ((e.view source.names).node.map fun c => (moved.lookup c).getD 0)
    exact ⟨wf', congrArg (fun result => ((id, result.1) :: moved, result.2)) made⟩

theorem WellFormed.adoptEntries (wf : t.WellFormed) (source : NodeTable) (ids : List Nat)
    (moved : List (Nat × Nat)) :
    Agrees (ids.foldl (NodeTable.adoptEntry source) (moved, t))
      (ids.foldl (Pool.adoptEntry source.view) (moved, t.view)) := by
  induction ids generalizing t moved with
  | nil => exact ⟨wf, rfl⟩
  | cons id ids ih =>
    obtain ⟨wf', adopted⟩ := wf.adoptEntry source moved id
    rw [List.foldl_cons, List.foldl_cons, adopted]
    exact ih wf' _

/-- **Adopting a node of another table** is adopting it from the other table's pool. -/
theorem WellFormed.adopt (wf : t.WellFormed) (source : NodeTable) (id : Nat) :
    Agrees (t.adopt source id) (t.view.adopt source.view id) := by
  obtain ⟨wf', adopted⟩ := wf.adoptEntries source (source.view.reachable [id]) []
  exact ⟨wf', by rw [Pool.adopt, adopted]; rfl⟩

/-! ### Looking up inputs -/

/-- An input is found under its number in the pool, whether its name is stored or not. -/
theorem WellFormed.findInput?_eq {input : Nat → StoredNode} {named : String → Node Nat} {name : String}
    (wf : t.WellFormed)
    (stores : ∀ names : Interner,
      names.store (named name) = (input (names.intern name).1, (names.intern name).2)) :
    t.findInput? input name kind = t.view.find? kind (named name) := by
  cases looked : t.names.lookup? name with
  | some symbol =>
    have known := wf.names.intern_known (wf.names.lookup?_eq_some_iff.1 looked)
    have resolved : (input symbol).resolve? t.names = some (named name) :=
      wf.names.store_eq_iff.1 (by rw [stores, known])
    rw [wf.find?_view kind resolved, findInput?, looked]
    rfl
  | none =>
    have missing : t.view.find? kind (named name) = none := by
      rw [Option.eq_none_iff_forall_ne_some]
      intro id found
      obtain ⟨e, he, -, node⟩ := Pool.entry?_of_find? found
      obtain ⟨s, -, -, resolved⟩ := wf.exists_entry he
      -- a node with the name would have stored the name
      have stored := (stores t.names).symm.trans (wf.names.store_eq_iff.2 (node ▸ resolved))
      obtain ⟨-, -, known⟩ := wf.names.intern name
      rw [show (t.names.intern name).2 = t.names from congrArg Prod.snd stored] at known
      rw [wf.names.lookup?_eq_some_iff.2 known] at looked
      cases looked
    rw [missing, findInput?, looked]
    rfl

theorem WellFormed.findAttribute?_eq (wf : t.WellFormed) (name : String) (kind : Kind) :
    t.findAttribute? name kind = t.view.find? kind (.attribute name) :=
  wf.findInput?_eq fun _ => rfl

theorem WellFormed.findUniform?_eq (wf : t.WellFormed) (name : String) (kind : Kind) :
    t.findUniform? name kind = t.view.find? kind (.uniform name) :=
  wf.findInput?_eq fun _ => rfl

end NodeTable

end ShaderDag
