import ShaderDag.Proofs.Lists
import ShaderDag.Proofs.Walk

/-!
# Pools as shared trees

A pool stores each node once, and below its parents.  Reading a node with everything below it gives a
tree; two nodes of a well-formed pool have the same tree only if they are the same node.

* `Kind.Fits` — the kind of a node given the kinds of its children;
* `Pool.WellFormed` — children below their parents, no node twice, every kind and digest right;
* `Pool.fold?` — a value computed from the leaves up, with `Pool.tree?` as the most general one;
* `Pool.WellFormed.tree_injective` — the tree determines the node;
* `Pool.Extends` — a pool that kept all entries of another;
* `Pool.WellFormed.intern` — adding a node of a fitting kind keeps a pool well-formed.
-/

namespace ShaderDag

variable {α β γ δ : Type}

/-! ### Nodes -/

namespace Node

theorem map_congr {f g : α → β} {n : Node α} (h : ∀ a ∈ n.children, f a = g a) :
    n.map f = n.map g := by
  cases n <;> simp_all [map, children]

/-- Two nodes that agree under one pair of maps agree under every pair that identifies at least as
many of their children. -/
theorem map_eq_map_of {f : α → γ} {g : β → γ} {f' : α → δ} {g' : β → δ} {n : Node α} {m : Node β}
    (h : ∀ a ∈ n.children, ∀ b ∈ m.children, f a = g b → f' a = g' b)
    (same : n.map f = m.map g) : n.map f' = m.map g' := by
  cases n <;> cases m <;> simp only [map, reduceCtorEq, operator.injEq, call.injEq, construct.injEq,
    varying.injEq, attribute.injEq, uniform.injEq, literal.injEq] at same ⊢
  case operator.operator => exact ⟨same.1, h _ (by simp [children]) _ (by simp [children]) same.2.1,
    h _ (by simp [children]) _ (by simp [children]) same.2.2⟩
  case call.call => exact ⟨same.1, map_eq_map_of_imp h same.2⟩
  case construct.construct => exact map_eq_map_of_imp h same
  case varying.varying => exact h _ (by simp [children]) _ (by simp [children]) same
  all_goals exact same

theorem mapM_eq_some_iff {f : α → Option β} {n : Node α} {m : Node β} :
    n.mapM f = some m ↔ n.map f = m.map some := by
  cases n <;> cases m <;>
    simp [mapM, map, Option.bind_eq_some_iff, mapM_eq_some_iff_map, and_comm, and_assoc]

theorem exists_map_some {f : α → Option β} {n : Node α} (h : ∀ a ∈ n.children, ∃ b, f a = some b) :
    ∃ m : Node β, n.map f = m.map some := by
  match n, h with
  | .operator op lhs rhs, h =>
    obtain ⟨l, hl⟩ := h lhs (by simp [children])
    obtain ⟨r, hr⟩ := h rhs (by simp [children])
    exact ⟨.operator op l r, by simp [map, hl, hr]⟩
  | .call function args, h =>
    have all : ∀ a ∈ args, ∃ b, f a = some b := h
    obtain ⟨bs, hbs⟩ := exists_map_eq_map_some all
    exact ⟨.call function bs, by simp [map, hbs]⟩
  | .construct args, h =>
    have all : ∀ a ∈ args, ∃ b, f a = some b := h
    obtain ⟨bs, hbs⟩ := exists_map_eq_map_some all
    exact ⟨.construct bs, by simp [map, hbs]⟩
  | .varying inner, h =>
    obtain ⟨b, hb⟩ := h inner (by simp [children])
    exact ⟨.varying b, by simp [map, hb]⟩
  | .attribute name, _ => exact ⟨.attribute name, rfl⟩
  | .uniform name, _ => exact ⟨.uniform name, rfl⟩
  | .literal value, _ => exact ⟨.literal value, rfl⟩

/-- If every child is the image of a value, then the node is the image of a node of such values. -/
theorem exists_map_eq {g : β → α} {good : α → β → Prop} {n : Node α}
    (h : ∀ a ∈ n.children, ∃ b, g b = a ∧ good a b) :
    ∃ m : Node β, n = m.map g ∧ ∀ b ∈ m.children, good (g b) b := by
  classical
  let pick (a : α) : Option β := if h : ∃ b, g b = a ∧ good a b then some h.choose else none
  have picked : ∀ a ∈ n.children, ∃ b, pick a = some b := fun a ha =>
    ⟨(h a ha).choose, dif_pos (h a ha)⟩
  obtain ⟨m, hm⟩ := exists_map_some picked
  have chosen : ∀ a b, pick a = some b → g b = a ∧ good a b := by
    intro a b hab
    by_cases hex : ∃ b, g b = a ∧ good a b
    · have : pick a = some hex.choose := dif_pos hex
      rw [this] at hab
      cases hab
      exact hex.choose_spec
    · have : pick a = none := dif_neg hex
      rw [this] at hab
      cases hab
  refine ⟨m, ?_, ?_⟩
  · rw [← map_id' n]
    exact map_eq_map_of (fun a _ b _ hab => (chosen a b hab).1.symm) hm
  · intro b hb
    obtain ⟨a, -, ha⟩ := exists_partner hm.symm hb
    obtain ⟨rfl, holds⟩ := chosen a b ha
    exact holds

/-- Two nodes that agree under a pair of maps are the two sides of a node of pairs. -/
theorem exists_zip {f : α → γ} {g : β → γ} {n : Node α} {k : Node β} (same : n.map f = k.map g) :
    ∃ m : Node (α × β), n = m.map (·.1) ∧ k = m.map (·.2) ∧ ∀ x ∈ m.children, f x.1 = g x.2 := by
  match n, k, same with
  | .operator op l r, .operator op' l' r', same =>
    simp only [map, operator.injEq] at same
    obtain ⟨rfl, hl, hr⟩ := same
    exact ⟨.operator op (l, l') (r, r'), rfl, rfl, by simp [children, hl, hr]⟩
  | .call function args, .call function' args', same =>
    simp only [map, call.injEq] at same
    obtain ⟨zs, rfl, rfl, all⟩ := exists_zip_of_map_eq same.2
    exact ⟨.call function zs, rfl, by rw [same.1]; rfl, all⟩
  | .construct args, .construct args', same =>
    simp only [map, construct.injEq] at same
    obtain ⟨zs, rfl, rfl, all⟩ := exists_zip_of_map_eq same
    exact ⟨.construct zs, rfl, rfl, all⟩
  | .varying inner, .varying inner', same =>
    simp only [map, varying.injEq] at same
    exact ⟨.varying (inner, inner'), rfl, rfl, by simp [children, same]⟩
  | .attribute name, .attribute name', same =>
    simp only [map, attribute.injEq] at same
    exact ⟨.attribute name, rfl, by rw [same]; rfl, by simp [children]⟩
  | .uniform name, .uniform name', same =>
    simp only [map, uniform.injEq] at same
    exact ⟨.uniform name, rfl, by rw [same]; rfl, by simp [children]⟩
  | .literal value, .literal value', same =>
    simp only [map, literal.injEq] at same
    exact ⟨.literal value, rfl, by rw [same]; rfl, by simp [children]⟩

theorem below?_eq_some_iff {bound : Nat} {node : Node Nat} {n : Node (Fin bound)} :
    node.below? bound = some n ↔ n.map Fin.val = node := by
  rw [below?, mapM_eq_some_iff]
  constructor
  · intro h
    have same : node.map id = n.map Fin.val := by
      refine map_eq_map_of (fun a _ b _ hab => ?_) h
      split at hab
      · exact congrArg Fin.val (Option.some.inj hab)
      · exact absurd hab (by simp)
    rw [← same, map_id']
  · rintro rfl
    rw [map_map]
    exact map_congr fun a _ => by simp

end Node

/-- The kind of a node whose children have the given kinds.  The kind of a constructor and of an input
is part of the node, the other kinds follow from the signature tables. -/
def Kind.Fits (kind : Kind) : Node Kind → Prop
  | .operator op lhs rhs => op.result? lhs rhs = some kind
  | .call function args => function.result? args = some kind
  | .construct args => kind.canConstruct args = true
  | .varying inner => kind = inner ∧ inner.canInterpolate = true
  | .attribute _ => kind.canBeAttribute = true
  | .uniform _ => True
  | .literal _ => kind = .float

/-- An expression written out in full: the kind and the operation of every node. -/
inductive Tree where
  | node (kind : Kind) (operation : Node Tree)

namespace Pool

variable {p q r : Pool} {a b id : Nat} {e : Entry}

/-! ### Entries -/

theorem entry?_lt (h : p.entry? id = some e) : id < p.size :=
  (Array.getElem?_eq_some_iff.1 h).1

theorem exists_entry (h : id < p.size) : ∃ e, p.entry? id = some e :=
  ⟨p.entries[id], Array.getElem?_eq_getElem h⟩

theorem kind_eq (h : p.entry? id = some e) : p.kind id = e.kind := by
  simp [kind, h]

theorem digest_eq (h : p.entry? id = some e) : p.digest id = e.digest := by
  simp [digest, h]

theorem node?_eq_some_iff {n : Node (Fin id)} :
    p.node? id = some n ↔ ∃ e, p.entry? id = some e ∧ n.map Fin.val = e.node := by
  simp only [node?, Option.bind_eq_some_iff, Node.below?_eq_some_iff]

/-- Children below their parents, no node twice, every kind follows from the signature tables, and every
digest from the children's digests. -/
structure WellFormed (p : Pool) : Prop where
  descending : ∀ id e, p.entry? id = some e → ∀ c ∈ e.node.children, c < id
  distinct : ∀ a b e f, p.entry? a = some e → p.entry? b = some f → e.kind = f.kind →
    e.node = f.node → a = b
  kinded : ∀ id e, p.entry? id = some e → e.kind.Fits (e.node.map p.kind)
  digested : ∀ id e, p.entry? id = some e → e.digest = Node.digest e.kind (e.node.map p.digest)

theorem wellFormed_empty : empty.WellFormed where
  descending id e h := by simp [empty, entry?] at h
  distinct a b e f h := by simp [empty, entry?] at h
  kinded id e h := by simp [empty, entry?] at h
  digested id e h := by simp [empty, entry?] at h

/-- A node is read with its children known to be smaller. -/
theorem exists_node (h : p.entry? id = some e) (below : ∀ c ∈ e.node.children, c < id) :
    ∃ n, p.node? id = some n ∧ n.map Fin.val = e.node := by
  obtain ⟨n, hn⟩ := Node.exists_map_some (n := e.node)
    (f := fun c => if h : c < id then some (⟨c, h⟩ : Fin id) else none)
    fun c hc => ⟨⟨c, below c hc⟩, by simp [below c hc]⟩
  have read : e.node.below? id = some n := Node.mapM_eq_some_iff.2 hn
  exact ⟨n, by simp [node?, h, read], Node.below?_eq_some_iff.1 read⟩

theorem childList_of_node {n : Node (Fin id)} (h : p.node? id = some n) :
    Walk.childList p id = (n.map Fin.val).children := by
  simp [Walk.childList, children, h]

/-- The edges of a well-formed pool are the children that its entries list. -/
theorem WellFormed.childList_eq (wf : p.WellFormed) (h : p.entry? id = some e) :
    Walk.childList p id = e.node.children := by
  obtain ⟨n, hn, same⟩ := exists_node h (wf.descending id e h)
  rw [childList_of_node hn, same]

theorem Child.exists_node (h : p.Child a b) : ∃ n, p.node? a = some n ∧ b ∈ (n.map Fin.val).children := by
  cases hn : p.node? a with
  | none => simp [Child, Walk.childList, children, hn] at h
  | some n => exact ⟨n, rfl, by rwa [Child, childList_of_node hn] at h⟩

theorem Reaches.lt_size (h : p.Reaches a b) (ha : a < p.size) : b < p.size :=
  Nat.lt_of_le_of_lt h.le ha

/-! ### Values computed from the leaves up -/

/-- The value of a node, computed from its kind and the values of its children. -/
def fold? (p : Pool) (combine : Kind → Node β → β) (id : Nat) : Option β := do
  let n ← p.node? id
  let values ← n.mapM fun (c : Fin id) => p.fold? combine c.val
  return combine (p.kind id) values
termination_by id
decreasing_by exact c.isLt

theorem fold?_eq_some_iff {combine : Kind → Node β → β} {x : β} :
    p.fold? combine id = some x ↔ ∃ e, p.entry? id = some e ∧ (∀ c ∈ e.node.children, c < id) ∧
      ∃ values : Node β, e.node.map (p.fold? combine) = values.map some ∧ combine e.kind values = x := by
  rw [fold?]
  simp only [bind, Option.bind_eq_some_iff, pure, Option.some.injEq, Node.mapM_eq_some_iff]
  constructor
  · rintro ⟨n, hn, values, hv, hx⟩
    obtain ⟨e, he, same⟩ := node?_eq_some_iff.1 hn
    refine ⟨e, he, ?_, values, ?_, by rw [← kind_eq he, hx]⟩
    · intro c hc
      rw [← same, Node.children_map, List.mem_map] at hc
      obtain ⟨i, -, rfl⟩ := hc
      exact i.isLt
    · rw [← same, Node.map_map, ← hv]
      rfl
  · rintro ⟨e, he, below, values, hv, hx⟩
    obtain ⟨n, hn, same⟩ := exists_node he below
    refine ⟨n, hn, values, ?_, by rw [kind_eq he, hx]⟩
    rw [← hv, ← same, Node.map_map]
    rfl

theorem WellFormed.exists_fold (wf : p.WellFormed) (combine : Kind → Node β → β) :
    ∀ id < p.size, ∃ x, p.fold? combine id = some x := by
  intro id
  induction id using Nat.strongRecOn with
  | ind id ih =>
    intro hid
    obtain ⟨e, he⟩ := exists_entry hid
    have below := wf.descending id e he
    obtain ⟨values, hv⟩ := Node.exists_map_some (n := e.node) (f := p.fold? combine)
      fun c hc => ih c (below c hc) (Nat.lt_trans (below c hc) hid)
    exact ⟨_, fold?_eq_some_iff.2 ⟨e, he, below, values, hv, rfl⟩⟩

/-- The tree that a node stands for. -/
def tree? (p : Pool) (id : Nat) : Option Tree := p.fold? Tree.node id

theorem tree?_eq_some_iff {kind : Kind} {operation : Node Tree} :
    p.tree? id = some (.node kind operation) ↔ ∃ e, p.entry? id = some e ∧
      (∀ c ∈ e.node.children, c < id) ∧ e.node.map p.tree? = operation.map some ∧ e.kind = kind := by
  rw [tree?, fold?_eq_some_iff]
  constructor
  · rintro ⟨e, he, below, values, hv, same⟩
    cases same
    exact ⟨e, he, below, hv, rfl⟩
  · rintro ⟨e, he, below, hv, rfl⟩
    exact ⟨e, he, below, operation, hv, rfl⟩

theorem tree?_lt {t : Tree} (h : p.tree? id = some t) : id < p.size := by
  cases t with
  | node kind operation =>
    obtain ⟨e, he, -⟩ := tree?_eq_some_iff.1 h
    exact entry?_lt he

theorem WellFormed.exists_tree (wf : p.WellFormed) (h : id < p.size) : ∃ t, p.tree? id = some t :=
  wf.exists_fold Tree.node id h

/-- **The tree determines the node.**  Children with equal trees are equal by induction, so the two
entries hold the same operation, and no operation is stored twice. -/
theorem WellFormed.tree_injective (wf : p.WellFormed) :
    ∀ {a b : Nat} {t : Tree}, p.tree? a = some t → p.tree? b = some t → a = b := by
  intro a
  induction a using Nat.strongRecOn with
  | ind a ih =>
    rintro b ⟨kind, operation⟩ ha hb
    obtain ⟨e, he, below, hae, rfl⟩ := tree?_eq_some_iff.1 ha
    obtain ⟨f, hf, -, hbf, kinds⟩ := tree?_eq_some_iff.1 hb
    have agree : e.node.map p.tree? = f.node.map p.tree? := hae.trans hbf.symm
    have total : ∀ c ∈ e.node.children, ∃ t, p.tree? c = some t := fun c hc =>
      wf.exists_tree (Nat.lt_trans (below c hc) (entry?_lt he))
    have nodes : e.node.map id = f.node.map id := by
      refine Node.map_eq_map_of (fun c hc d _ hcd => ?_) agree
      obtain ⟨t, ht⟩ := total c hc
      exact ih c (below c hc) ht (hcd ▸ ht)
    rw [Node.map_id', Node.map_id'] at nodes
    exact wf.distinct a b e f he hf kinds.symm nodes

/-! ### Growing pools -/

/-- A pool that kept every entry of `p` under its number. -/
def Extends (p q : Pool) : Prop := ∀ id e, p.entry? id = some e → q.entry? id = some e

theorem Extends.refl (p : Pool) : p.Extends p := fun _ _ h => h

theorem Extends.trans (h : p.Extends q) (h' : q.Extends r) : p.Extends r :=
  fun id e he => h' id e (h id e he)

theorem Extends.lt_size (h : p.Extends q) (hid : id < p.size) : id < q.size := by
  obtain ⟨e, he⟩ := exists_entry hid
  exact entry?_lt (h id e he)

theorem Extends.kind_eq (h : p.Extends q) (hid : id < p.size) : q.kind id = p.kind id := by
  obtain ⟨e, he⟩ := exists_entry hid
  rw [Pool.kind_eq he, Pool.kind_eq (h id e he)]

theorem Extends.digest_eq (h : p.Extends q) (hid : id < p.size) : q.digest id = p.digest id := by
  obtain ⟨e, he⟩ := exists_entry hid
  rw [Pool.digest_eq he, Pool.digest_eq (h id e he)]

theorem Extends.fold?_eq (h : p.Extends q) (combine : Kind → Node β → β) :
    ∀ {id : Nat} {x : β}, p.fold? combine id = some x → q.fold? combine id = some x := by
  intro id
  induction id using Nat.strongRecOn with
  | ind id ih =>
    intro x hx
    obtain ⟨e, he, below, values, hv, rfl⟩ := fold?_eq_some_iff.1 hx
    refine fold?_eq_some_iff.2 ⟨e, h id e he, below, values, ?_, rfl⟩
    rw [← hv]
    refine Node.map_congr fun c hc => ?_
    obtain ⟨y, -, hy⟩ := Node.exists_partner hv hc
    rw [← hy, ih c (below c hc) hy.symm]

theorem Extends.tree?_eq (h : p.Extends q) {t : Tree} (ht : p.tree? id = some t) :
    q.tree? id = some t := h.fold?_eq Tree.node ht

/-- A node that may be added: its children are there, and its kind follows from theirs. -/
structure Admits (p : Pool) (kind : Kind) (node : Node Nat) : Prop where
  present : ∀ c ∈ node.children, c < p.size
  fits : kind.Fits (node.map p.kind)

theorem Admits.mono {kind : Kind} {node : Node Nat} (h : p.Extends q) (ok : p.Admits kind node) :
    q.Admits kind node where
  present c hc := h.lt_size (ok.present c hc)
  fits := by
    rw [Node.map_congr fun c hc => h.kind_eq (ok.present c hc)]
    exact ok.fits

/-- The pool with one more entry. -/
def push (p : Pool) (e : Entry) : Pool := ⟨p.entries.push e⟩

theorem entry?_push (p : Pool) (e : Entry) (id : Nat) :
    entry? (p.push e) id = if id = p.size then some e else p.entry? id :=
  Array.getElem?_push

theorem extends_push (p : Pool) (e : Entry) : p.Extends (p.push e) := by
  intro id f hf
  rw [entry?_push, if_neg (Nat.ne_of_lt (entry?_lt hf)), hf]

theorem entry?_of_find? {kind : Kind} {node : Node Nat} (found : p.find? kind node = some id) :
    ∃ e, p.entry? id = some e ∧ e.kind = kind ∧ e.node = node := by
  obtain ⟨hid, same, -⟩ := Array.findIdx?_eq_some_iff_getElem.1 found
  simp only [Bool.and_eq_true, beq_iff_eq] at same
  exact ⟨p.entries[id], Array.getElem?_eq_getElem hid, same.1, same.2⟩

theorem node_ne_of_find? {kind : Kind} {node : Node Nat} (missing : p.find? kind node = none)
    (he : p.entry? id = some e) (hk : e.kind = kind) : e.node ≠ node := by
  intro hn
  have := Array.findIdx?_eq_none_iff.1 missing e (Array.mem_of_getElem? he)
  simp [hk, hn] at this

/-- What adding a node does: it is there already, or it becomes the last entry. -/
theorem intern_cases (p : Pool) (kind : Kind) (node : Node Nat) :
    (∃ id e, p.entry? id = some e ∧ e.kind = kind ∧ e.node = node ∧ p.intern kind node = (id, p)) ∨
    ((∀ id e, p.entry? id = some e → e.kind = kind → e.node ≠ node) ∧
      p.intern kind node = (p.size, p.push ⟨kind, node, Node.digest kind (node.map p.digest)⟩)) := by
  cases found : p.find? kind node with
  | some id =>
    obtain ⟨e, he, hk, hn⟩ := entry?_of_find? found
    exact .inl ⟨id, e, he, hk, hn, by simp [intern, found]⟩
  | none =>
    exact .inr ⟨fun id e he hk => node_ne_of_find? found he hk, by simp [intern, found, push]⟩

/-- No two entries have the same kind and the same node. -/
def Distinct (p : Pool) : Prop :=
  ∀ a b e f, p.entry? a = some e → p.entry? b = some f → e.kind = f.kind → e.node = f.node → a = b

/-- A node is found under its number, and nothing else is found. -/
theorem Distinct.find?_eq_some_iff {kind : Kind} {node : Node Nat} (distinct : p.Distinct) :
    p.find? kind node = some id ↔ ∃ e, p.entry? id = some e ∧ e.kind = kind ∧ e.node = node := by
  constructor
  · exact entry?_of_find?
  · rintro ⟨e, he, hk, hn⟩
    cases found : p.find? kind node with
    | some other =>
      obtain ⟨f, hf, hk', hn'⟩ := entry?_of_find? found
      rw [distinct other id f e hf he (hk'.trans hk.symm) (hn'.trans hn.symm)]
    | none => exact absurd hn (node_ne_of_find? found he hk)

theorem WellFormed.find?_eq_some_iff {kind : Kind} {node : Node Nat} (wf : p.WellFormed) :
    p.find? kind node = some id ↔ ∃ e, p.entry? id = some e ∧ e.kind = kind ∧ e.node = node :=
  Distinct.find?_eq_some_iff wf.distinct

/-- A node above the last one is not there yet. -/
theorem WellFormed.find?_eq_none {kind : Kind} {node : Node Nat} {c : Nat} (wf : p.WellFormed)
    (hc : c ∈ node.children) (last : p.size ≤ c + 1) : p.find? kind node = none := by
  refine Array.findIdx?_eq_none_iff.2 fun e he => ?_
  obtain ⟨id, hid⟩ := Array.mem_iff_getElem?.1 he
  rw [Bool.and_eq_false_iff]
  refine .inr (beq_false_of_ne ?_)
  rintro rfl
  have := wf.descending id e hid c hc
  have := entry?_lt hid
  omega

theorem extends_intern (p : Pool) (kind : Kind) (node : Node Nat) :
    p.Extends (p.intern kind node).2 := by
  rcases p.intern_cases kind node with ⟨id, e, -, -, -, run⟩ | ⟨-, run⟩ <;> rw [run]
  · exact .refl p
  · exact p.extends_push _

theorem entry?_intern (p : Pool) (kind : Kind) (node : Node Nat) :
    ∃ e, entry? (p.intern kind node).2 (p.intern kind node).1 = some e ∧ e.kind = kind ∧
      e.node = node := by
  rcases p.intern_cases kind node with ⟨id, e, he, hk, hn, run⟩ | ⟨-, run⟩ <;> rw [run]
  · exact ⟨e, he, hk, hn⟩
  · exact ⟨_, by rw [entry?_push, if_pos rfl], rfl, rfl⟩

/-- **Adding a node keeps a pool well-formed.** -/
theorem WellFormed.intern {kind : Kind} {node : Node Nat} (wf : p.WellFormed)
    (ok : p.Admits kind node) : (p.intern kind node).2.WellFormed := by
  rcases p.intern_cases kind node with ⟨id, e, -, -, -, run⟩ | ⟨new, run⟩ <;> rw [run]
  · exact wf
  -- an entry of the grown pool is the new one, under the old size, or an old one
  have split : ∀ {id e}, entry? (p.push ⟨kind, node, Node.digest kind (node.map p.digest)⟩) id = some e →
      (id = p.size ∧ e = ⟨kind, node, Node.digest kind (node.map p.digest)⟩) ∨ p.entry? id = some e := by
    intro id e he
    rw [entry?_push] at he
    split at he
    · exact .inl ⟨‹_›, (Option.some.inj he).symm⟩
    · exact .inr he
  have grown := p.extends_push ⟨kind, node, Node.digest kind (node.map p.digest)⟩
  refine ⟨?_, ?_, ?_, ?_⟩
  · intro id e he c hc
    rcases split he with ⟨rfl, rfl⟩ | he
    · exact ok.present c hc
    · exact wf.descending id e he c hc
  · intro a b e f he hf kinds nodes
    rcases split he with ⟨rfl, rfl⟩ | he <;> rcases split hf with ⟨rfl, rfl⟩ | hf
    · rfl
    · exact absurd nodes.symm (new b f hf kinds.symm)
    · exact absurd nodes (new a e he kinds)
    · exact wf.distinct a b e f he hf kinds nodes
  · intro id e he
    rcases split he with ⟨rfl, rfl⟩ | he
    · exact (ok.mono grown).fits
    · rw [Node.map_congr fun c hc =>
        grown.kind_eq (Nat.lt_trans (wf.descending id e he c hc) (entry?_lt he))]
      exact wf.kinded id e he
  · intro id e he
    rcases split he with ⟨rfl, rfl⟩ | he
    · rw [Node.map_congr fun c hc => grown.digest_eq (ok.present c hc)]
    · rw [Node.map_congr fun c hc =>
        grown.digest_eq (Nat.lt_trans (wf.descending id e he c hc) (entry?_lt he))]
      exact wf.digested id e he

end Pool

end ShaderDag
