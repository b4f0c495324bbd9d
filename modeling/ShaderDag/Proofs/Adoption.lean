import ShaderDag.Proofs.FullWalk
import ShaderDag.Proofs.Session
import ShaderDag.Proofs.Twin

/-!
# Adoption is exact

A node that is used in another pool is adopted there with everything below it.  The trees of the receiving
pool, listed by their numbers, grow by those trees of the expression that were missing, in the order in
which the expression is first visited; so the number that a tree gets there does not depend on how the tree
came.

* `Pool.trees` — the trees of a pool, by number;
* `Pool.WellFormed.trees_intern`, `Pool.WellFormed.trees_adopt` — what adding and adopting do to them;
* `Build.ofNode`, `Build.bring` — an operation on handles, and a handle brought to a pool;
* `Workspace.Adopted` — everything that an adoption does;
* `Session.Reachable.adopt_exact` — every adoption in a reachable session does it.
-/

namespace ShaderDag

/-- Trees are compared in statements only. -/
noncomputable instance : DecidableEq Tree := Classical.decEq Tree

namespace Pool

variable {p q source : Pool} {id : Nat}

/-! ### The trees of a pool -/

/-- The trees of the nodes, in the order of their numbers. -/
def trees (p : Pool) : List (Option Tree) := (List.range p.size).map p.tree?

@[simp] theorem length_trees (p : Pool) : p.trees.length = p.size := by
  rw [trees, List.length_map, List.length_range]

theorem mem_trees {t : Option Tree} : t ∈ p.trees ↔ ∃ c < p.size, p.tree? c = t := by
  simp only [trees, List.mem_map, List.mem_range]

/-- The tree of a number in the list of trees is the tree of the node. -/
theorem tree?_eq_of_trees_eq (same : p.trees = q.trees) (c : Nat) : p.tree? c = q.tree? c := by
  have sizes : p.size = q.size := by rw [← length_trees, same, length_trees]
  by_cases hc : c < p.size
  · have here := congrArg (fun ts : List (Option Tree) => ts[c]?) same
    simpa [trees, hc, sizes ▸ hc] using here
  · have absent : ∀ r : Pool, ¬c < r.size → r.tree? c = none := by
      intro r hr
      cases ht : r.tree? c with
      | none => rfl
      | some t => exact absurd (tree?_lt ht) hr
    rw [absent p hc, absent q (sizes ▸ hc)]

/-- Adding a node appends its tree to the trees of the pool, unless it is there. -/
theorem WellFormed.trees_intern {kind : Kind} {node : Node Nat} (wf : p.WellFormed)
    (wf' : (p.intern kind node).2.WellFormed) :
    (p.intern kind node).2.trees =
      appendNew p.trees [(p.intern kind node).2.tree? (p.intern kind node).1] := by
  have kept := p.extends_intern kind node
  rcases p.intern_cases kind node with ⟨id, e, he, -, -, run⟩ | ⟨-, run⟩ <;> rw [run] at wf' kept ⊢
  · refine (appendNew_of_subset ?_).symm
    intro t ht
    rw [List.mem_singleton] at ht
    exact mem_trees.2 ⟨id, entry?_lt he, ht.symm⟩
  · generalize Entry.mk kind node (Node.digest kind (node.map p.digest)) = e at wf' kept ⊢
    dsimp only at wf' kept ⊢
    have size : (p.push e).size = p.size + 1 := Array.size_push _
    obtain ⟨t, ht⟩ := wf'.exists_tree (show p.size < (p.push e).size by omega)
    have old : ∀ c ∈ List.range p.size, (p.push e).tree? c = p.tree? c := by
      intro c hc
      obtain ⟨u, hu⟩ := wf.exists_tree (List.mem_range.1 hc)
      rw [hu, kept.tree?_eq hu]
    have new : (p.push e).tree? p.size ∉ p.trees := by
      intro mem
      obtain ⟨c, hc, same⟩ := mem_trees.1 mem
      rw [ht] at same
      have := wf'.tree_injective ht (kept.tree?_eq same)
      omega
    rw [appendNew_singleton new, trees, size, List.range_succ, List.map_append, List.map_congr_left old]
    rfl

/-- A run of an adoption appends the trees of its nodes, unless they are there. -/
theorem adoptEntries_trees (wfSource : source.WellFormed) :
    ∀ (ids : List Nat) (moved : List (Nat × Nat)) (p : Pool), p.WellFormed → Moved source moved p →
      (∀ id ∈ ids, id < source.size) → ChildrenFirst source (fun _ => true) (moved.map (·.1)) ids →
      (ids.foldl (adoptEntry source) (moved, p)).2.trees = appendNew p.trees (ids.map source.tree?) := by
  intro ids
  induction ids with
  | nil =>
    intro moved p _ _ _ _
    exact (appendNew_of_subset (by simp)).symm
  | cons id ids ih =>
    intro moved p wf same present first
    have hid := present id List.mem_cons_self
    obtain ⟨new, q, run, wf', -, same'⟩ := adoptEntry_spec wfSource wf same hid
      fun c hc => exists_lookup (first.1 c hc rfl)
    have grown : q.trees = appendNew p.trees [source.tree? id] := by
      obtain ⟨e, he⟩ := exists_entry hid
      obtain ⟨t, hs, hq⟩ := same' id new (by simp)
      simp only [adoptEntry, he] at run
      obtain ⟨rfl, rfl⟩ : _ ∧ _ := by simpa using run
      rw [wf.trees_intern wf', hs, hq]
    rw [List.foldl_cons, run, ih ((id, new) :: moved) q wf' same'
      (fun i hi => present i (List.mem_cons_of_mem id hi)) first.2, grown, ← appendNew_append]
    rfl

/-- The nodes that roots reach are those of the expressions written out in full, each at its first
place. -/
theorem reachable_eq_eraseDups (p : Pool) (roots : List Nat) :
    p.reachable roots = (p.fullWalk (fun _ => true) roots).eraseDups := by
  have run : Visits p (askOnceIf fun _ => true) roots [] (p.reachable roots) _ := visits_reachable p roots
  have closed : p.ClosedBelow (fun _ => true) [] (roots.max?.getD 0 + 1) := by simp [ClosedBelow]
  have first := run.eq_eraseDups closed fun id hid => Nat.lt_succ_of_le (List.le_max?_getD_of_mem hid)
  rwa [List.removeAll_nil] at first

/-- The trees of an expression, children first, once for every place where they stand. -/
def treesBelow (p : Pool) (id : Nat) : List (Option Tree) :=
  (p.fullWalk (fun _ => true) [id]).map p.tree?

theorem treesBelow_eq (p : Pool) (id : Nat) :
    p.treesBelow id = (Walk.childList p id).flatMap p.treesBelow ++ [p.tree? id] := by
  rw [treesBelow, fullWalk_kept rfl, List.map_append, fullWalk_eq_flatMap, List.map_flatMap]
  rfl

theorem lt_size_of_mem_reachable {c : Nat} (hid : id < p.size) (hc : c ∈ p.reachable [id]) :
    c < p.size := by
  obtain ⟨r, hr, path⟩ := mem_reachable.1 hc
  rw [List.mem_singleton] at hr
  exact path.lt_size (hr ▸ hid)

/-- The trees of an expression are trees of its pool. -/
theorem treesBelow_subset (hid : id < p.size) : ∀ t ∈ p.treesBelow id, t ∈ p.trees := by
  intro t ht
  obtain ⟨c, hc, rfl⟩ := List.mem_map.1 ht
  rw [← List.mem_eraseDups, ← reachable_eq_eraseDups] at hc
  exact mem_trees.2 ⟨c, lt_size_of_mem_reachable hid hc, rfl⟩

/-- Nodes with the same tree have the same trees below them, in the same order. -/
theorem Twin.treesBelow_eq {a b : Nat} (h : Twin p q a b) : p.treesBelow a = q.treesBelow b := by
  have answers : ∀ c d (s s' : Unit), Twin p q c d → True →
      (askIf (fun _ => true) c s).1 = (askIf (fun _ => true) d s').1 ∧ True :=
    fun _ _ _ _ _ _ => ⟨rfl, trivial⟩
  have walks := (p.visits_fullWalk (fun _ => true) [a]).twin answers
    (q.visits_fullWalk (fun _ => true) [b]) (.cons h .nil) trivial
  refine map_eq_of_forall₂ walks.1 ?_
  rintro c d ⟨t, hc, hd⟩
  rw [hc, hd]

/-- **Adoption appends what is missing.**  The trees of the receiving pool are followed by those trees of
the expression that it did not hold, in the order of their first visit. -/
theorem WellFormed.trees_adopt (wf : p.WellFormed) (wfSource : source.WellFormed)
    (hid : id < source.size) :
    (p.adopt source id).2.trees = appendNew p.trees (source.treesBelow id) := by
  have run := adoptEntries_trees wfSource (source.reachable [id]) [] p wf (fun _ _ h => by simp at h)
    (fun c hc => lt_size_of_mem_reachable hid hc) (childrenFirst_reachable source [id])
  rw [reachable_eq_eraseDups, appendNew_map_eraseDups] at run
  rw [Pool.adopt, reachable_eq_eraseDups]
  exact run

/-- A node whose children are twins of a node's children becomes its twin. -/
theorem WellFormed.intern_twin {e : Entry} {m : Node (Nat × Nat)} (wf : p.WellFormed)
    (wfSource : source.WellFormed) (he : source.entry? id = some e) (left : e.node = m.map (·.1))
    (twins : ∀ x ∈ m.children, Twin source p x.1 x.2) :
    (p.intern e.kind (m.map (·.2))).2.WellFormed ∧
      Twin source (p.intern e.kind (m.map (·.2))).2 id (p.intern e.kind (m.map (·.2))).1 := by
  -- this is a step of an adoption in which the children have been moved to their twins
  have moved : Moved source m.children p := fun old new h => twins (old, new) (mem_of_lookup h)
  have keys : e.node.children = m.children.map (·.1) := by rw [left, Node.children_map]
  have ready : ∀ c, source.Child id c → ∃ new, m.children.lookup c = some new := by
    intro c hc
    rw [Child, wfSource.childList_eq he, keys] at hc
    exact exists_lookup hc
  have renamed : e.node.map (fun c => (m.children.lookup c).getD 0) = m.map (·.2) := by
    rw [left, Node.map_map]
    refine Node.map_congr fun x hx => ?_
    obtain ⟨new, hnew⟩ := exists_lookup (List.mem_map_of_mem hx)
    have twin : Twin source p x.1 new := twins (x.1, new) (mem_of_lookup hnew)
    rw [Function.comp_apply, hnew, Option.getD_some, twin.eq_right wf (twins x hx)]
  obtain ⟨new, q, run, wf', -, same⟩ := adoptEntry_spec wfSource wf moved (entry?_lt he) ready
  simp only [adoptEntry, he, renamed] at run
  obtain ⟨rfl, rfl⟩ : (p.intern e.kind (m.map (·.2))).1 = new ∧
      (p.intern e.kind (m.map (·.2))).2 = q := by
    simpa using run
  exact ⟨wf', same id _ (by simp)⟩

/-- A node that has been copied is looked up in the numbers so far. -/
theorem adoptEntries_lookup (wf : p.WellFormed) (wfSource : source.WellFormed) (hid : id < source.size)
    {before after : List Nat} {c : Nat} (walk : source.reachable [id] = before ++ after)
    (copied : c ∈ before) : ∃ new, (before.foldl (adoptEntry source) ([], p)).1.lookup c = some new := by
  have first := childrenFirst_reachable source [id]
  rw [walk, childrenFirst_append] at first
  have present : ∀ n ∈ before, n < source.size := fun n hn =>
    lt_size_of_mem_reachable hid (walk ▸ List.mem_append_left _ hn)
  obtain ⟨moved, q, run, -, -, -, keys⟩ := adoptEntries_spec wfSource before [] p wf
    (fun _ _ h => by simp at h) present first.1
  rw [run]
  exact exists_lookup (keys c (List.mem_append_left _ copied))

/-- When a walk yields a node, it has yielded the children. -/
theorem child_mem_before {before after : List Nat} {roots : List Nat} {c d : Nat}
    (walk : source.reachable roots = before ++ c :: after) (child : source.Child c d) : d ∈ before := by
  have first := childrenFirst_reachable source roots
  rw [walk, childrenFirst_append] at first
  simpa using first.2.1 d child rfl

theorem Extends.eq_of_size (h : p.Extends q) (size : q.size = p.size) : q = p := by
  cases p with
  | mk entries =>
    cases q with
    | mk entries' =>
      refine congrArg Pool.mk (Array.ext_getElem? fun c => ?_)
      by_cases hc : c < entries.size
      · obtain ⟨e, he⟩ := exists_entry (p := ⟨entries⟩) hc
        exact (h c e he).trans he.symm
      · have hc' : ¬c < entries'.size := fun lt => hc (Nat.lt_of_lt_of_eq lt size)
        rw [Array.getElem?_eq_none (Nat.le_of_not_lt hc), Array.getElem?_eq_none (Nat.le_of_not_lt hc')]

end Pool

/-- The handle of a node, if the pool has the number `pool`. -/
def Pool.handle (p : Pool) (pool id : Nat) : Handle := ⟨pool, id, p.kind id⟩

/-! ### Workspaces in which one pool gains trees -/

namespace Workspace

variable {w w' w'' : Workspace} {i j id : Nat}

/-- One pool gained those of some trees that it did not hold, and the other pools are as they were. -/
structure Gains (w : Workspace) (i : Nat) (ts : List (Option Tree)) (w' : Workspace) : Prop where
  grows : w.Grows w'
  others : ∀ k, k ≠ i → w'.pool k = w.pool k
  gained : (w'.pool i).trees = appendNew (w.pool i).trees ts

theorem WellFormed.gains_nil (wf : w.WellFormed) (i : Nat) : w.Gains i [] w :=
  ⟨wf.grows_refl, fun _ _ => rfl, (appendNew_of_subset (by simp)).symm⟩

theorem Gains.trans {ts us : List (Option Tree)} (g : w.Gains i ts w') (g' : w'.Gains i us w'') :
    w.Gains i (ts ++ us) w'' where
  grows := g.grows.trans g'.grows
  others k hk := (g'.others k hk).trans (g.others k hk)
  gained := by rw [appendNew_append, ← g.gained, g'.gained]

theorem WellFormed.gains_setPool {p : Pool} {ts : List (Option Tree)} (wf : w.WellFormed)
    (hi : i < w.pools.size) (hp : p.WellFormed) (kept : (w.pool i).Extends p)
    (gained : p.trees = appendNew (w.pool i).trees ts) : w.Gains i ts (w.setPool i p) where
  grows := wf.setPool hi hp kept
  others k hk := by rw [pool_setPool hi, if_neg hk]
  gained := by rw [pool_setPool hi, if_pos rfl, gained]

/-- A workspace that gains nothing does not change. -/
theorem Gains.eq_of_subset {ts : List (Option Tree)} (g : w.Gains i ts w')
    (sub : ∀ t ∈ ts, t ∈ (w.pool i).trees) : w' = w := by
  have same : ∀ k, w'.pool k = w.pool k := by
    intro k
    by_cases hk : k = i
    · subst hk
      refine (g.grows.kept k).eq_of_size ?_
      rw [← Pool.length_trees, g.gained, appendNew_of_subset sub, Pool.length_trees]
    · exact g.others k hk
  cases w with
  | mk pools =>
    cases w' with
    | mk pools' =>
      have size : pools'.size = pools.size := g.grows.size_eq
      refine congrArg Workspace.mk (Array.ext size fun k hk hk' => ?_)
      simpa [pool, Array.getD, hk, hk'] using same k

theorem lt_pools_of_lt_size (h : id < (w.pool i).size) : i < w.pools.size := by
  by_contra out
  have : w.pool i = .empty := by simp [pool, Array.getD, out]
  rw [this] at h
  exact absurd h (Nat.not_lt_zero id)

theorem holds_handle (h : id < (w.pool i).size) : w.Holds ((w.pool i).handle i id) := by
  obtain ⟨e, he⟩ := Pool.exists_entry h
  exact ⟨lt_pools_of_lt_size h, e, he, (Pool.kind_eq he).symm⟩

end Workspace

/-! ### Operations on handles -/

namespace Build

variable {w w' : Workspace} {i j pool : Nat} {h : Handle}

/-- The checked construction of a node of a kind from handles. -/
def ofNode (pool : Nat) (kind : Kind) : Node Handle → Build Handle
  | .operator op lhs rhs => binary op lhs rhs
  | .call function args => call pool function.name args
  | .construct args => construct pool kind args
  | .varying inner => varying inner
  | .attribute name => addAttribute pool name kind
  | .uniform name => addUniform pool name kind
  | .literal value => addConstant pool value

/-- The handle of the same expression in a pool. -/
def bring (pool : Nat) (h : Handle) : Build Handle := do
  let id ← adopt pool h
  return ⟨pool, id, h.kind⟩

section Runs

variable {α β : Type} {action : Build α} {next : α → Build β} {w₁ : Workspace}

/-- An action on the children of a node, run in evaluation order, pairs them with its results. -/
theorem mapM_children {f : α → Build β} {n : Node α} {ys : List β}
    (run : n.children.mapM f w = .ok ys w') (length : n.children.length = ys.length) :
    ∃ m : Node (α × β), n = m.map (·.1) ∧ m.children = n.children.zip ys ∧
      n.mapM f w = .ok (m.map (·.2)) w' := by
  have fst : ∀ as : List α, as.length = ys.length → as = (as.zip ys).map (·.1) := fun as h =>
    (List.map_fst_zip (Nat.le_of_eq h)).symm
  have snd : ∀ as : List α, as.length = ys.length → ys = (as.zip ys).map (·.2) := fun as h =>
    (List.map_snd_zip (Nat.le_of_eq h.symm)).symm
  match n, run, length with
  | .operator op l r, run, _ =>
    have run : [l, r].mapM f w = .ok ys w' := run
    simp only [List.mapM_cons, List.mapM_nil, bind_assoc, pure_bind] at run
    obtain ⟨y, w₁, left, rest⟩ := bind_eq_ok run
    obtain ⟨z, w₂, right, last⟩ := bind_eq_ok rest
    cases last
    exact ⟨.operator op (l, y) (r, z), rfl, rfl, by rw [Node.mapM, bind_ok left, bind_ok right]; rfl⟩
  | .call function args, run, length =>
    have run : args.mapM f w = .ok ys w' := run
    refine ⟨.call function (args.zip ys), congrArg (Node.call function) (fst args length), rfl, ?_⟩
    rw [Node.mapM, bind_ok run, Node.map, ← snd args length]
    rfl
  | .construct args, run, length =>
    have run : args.mapM f w = .ok ys w' := run
    refine ⟨.construct (args.zip ys), congrArg Node.construct (fst args length), rfl, ?_⟩
    rw [Node.mapM, bind_ok run, Node.map, ← snd args length]
    rfl
  | .varying inner, run, _ =>
    have run : [inner].mapM f w = .ok ys w' := run
    simp only [List.mapM_cons, List.mapM_nil, pure_bind] at run
    obtain ⟨y, w₁, first, rest⟩ := bind_eq_ok run
    cases rest
    exact ⟨.varying (inner, y), rfl, rfl, by rw [Node.mapM, bind_ok first]; rfl⟩
  | .attribute name, run, _ => cases run; exact ⟨.attribute name, rfl, rfl, rfl⟩
  | .uniform name, run, _ => cases run; exact ⟨.uniform name, rfl, rfl, rfl⟩
  | .literal value, run, _ => cases run; exact ⟨.literal value, rfl, rfl, rfl⟩

end Runs

theorem adopt_home (home : h.pool = pool) : adopt pool h = pure h.id := by
  subst home
  exact funext fun w => adopt_run_home w h

theorem adoptAll_home {args : List Handle} (home : ∀ h ∈ args, h.pool = pool) :
    args.mapM (adopt pool) = pure (args.map (·.id)) := by
  induction args with
  | nil => rfl
  | cons h args ih =>
    rw [List.mapM_cons, adopt_home (home h List.mem_cons_self),
      ih fun a ha => home a (List.mem_cons_of_mem h ha)]
    rfl

/-- A construction from handles of one pool adds one node there, if the kinds allow it. -/
theorem ofNode_eq_intern {kind : Kind} {node : Node Handle} (home : ∀ h ∈ node.children, h.pool = pool)
    (fits : kind.Fits (node.map (·.kind))) :
    ofNode pool kind node = intern pool kind (node.map (·.id)) := by
  match node, home, fits with
  | .operator op lhs rhs, home, fits =>
    have left : lhs.pool = pool := home lhs (by simp [Node.children])
    have right : rhs.pool = pool := home rhs (by simp [Node.children])
    have result : op.result? lhs.kind rhs.kind = some kind := fits
    simp only [ofNode, binary, result, left, adopt_home right, pure_bind]
    rfl
  | .call function args, home, fits =>
    have result : function.result? (args.map (·.kind)) = some kind := fits
    have here : ∀ h ∈ args, h.pool = pool := home
    simp only [ofNode, call, Builtin.ofName?_name, result, adoptAll_home here, pure_bind]
    rfl
  | .construct args, home, fits =>
    have accepted : kind.canConstruct (args.map (·.kind)) = true := fits
    have here : ∀ h ∈ args, h.pool = pool := home
    simp only [ofNode, construct, accepted, if_true, adoptAll_home here, pure_bind]
    rfl
  | .varying inner, home, fits =>
    obtain ⟨rfl, ok⟩ : kind = inner.kind ∧ inner.kind.canInterpolate = true := fits
    have left : inner.pool = pool := home inner (by simp [Node.children])
    simp only [ofNode, varying, ok, if_true, left]
    rfl
  | .attribute name, _, fits =>
    have ok : kind.canBeAttribute = true := fits
    simp only [ofNode, addAttribute, ok, if_true]
    rfl
  | .uniform name, _, _ => rfl
  | .literal value, _, fits =>
    obtain rfl : kind = .float := fits
    rfl

/-- Adopting a node adds the trees of its expression that are missing, and gives its twin. -/
theorem adopt_gains (wf : w.WellFormed) (hpool : pool < w.pools.size) (held : w.Holds h) :
    ∃ new w', adopt pool h w = .ok new w' ∧
      w.Gains pool ((w.pool h.pool).treesBelow h.id) w' ∧
      Pool.Twin (w.pool h.pool) (w'.pool pool) h.id new := by
  by_cases home : h.pool = pool
  · subst home
    obtain ⟨t, ht⟩ := (wf h.pool).exists_tree held.lt
    have gains : w.Gains h.pool ((w.pool h.pool).treesBelow h.id) w :=
      ⟨wf.grows_refl, fun _ _ => rfl, (appendNew_of_subset (Pool.treesBelow_subset held.lt)).symm⟩
    exact ⟨h.id, w, adopt_run_home w h, gains, t, ht, ht⟩
  · obtain ⟨wf', kept, t, hs, hq⟩ := (wf pool).adopt (wf h.pool) held.lt
    refine ⟨_, _, adopt_run_foreign w home, wf.gains_setPool hpool wf' kept
      ((wf pool).trees_adopt (wf h.pool) held.lt), t, hs, ?_⟩
    rw [Workspace.pool_setPool hpool, if_pos rfl, hq]

/-- A node whose tree is there already is found, and nothing is added. -/
theorem adopt_present {id : Nat} (wf : w.WellFormed) (hpool : pool < w.pools.size) (held : w.Holds h)
    (twin : Pool.Twin (w.pool h.pool) (w.pool pool) h.id id) : adopt pool h w = .ok id w := by
  obtain ⟨new, w', run, gains, twin'⟩ := adopt_gains wf hpool held
  have same : w' = w := by
    refine gains.eq_of_subset ?_
    rw [twin.treesBelow_eq]
    obtain ⟨t, -, ht⟩ := twin
    exact Pool.treesBelow_subset (Pool.tree?_lt ht)
  subst same
  rw [run, twin'.eq_right (wf pool) twin]

/-- A handle that stands at home for the expression of a handle of another pool. -/
def Brought (source p : Pool) (i : Nat) (h h' : Handle) : Prop :=
  h'.pool = i ∧ h'.kind = h.kind ∧ Pool.Twin source p h.id h'.id

/-- Handles of another pool are brought one by one. -/
theorem bringAll_gains (apart : j ≠ i) :
    ∀ {hs : List Handle} {w : Workspace}, w.WellFormed → i < w.pools.size → (∀ h ∈ hs, w.Holds h) →
      (∀ h ∈ hs, h.pool = j) →
      ∃ hs' w', hs.mapM (bring i) w = .ok hs' w' ∧
        w.Gains i (hs.flatMap fun h => (w.pool j).treesBelow h.id) w' ∧
        List.Forall₂ (Brought (w.pool j) (w'.pool i) i) hs hs' := by
  intro hs
  induction hs with
  | nil => exact fun wf _ _ _ => ⟨[], _, rfl, wf.gains_nil i, .nil⟩
  | cons h hs ih =>
    intro w wf hi held source
    have here : h.pool = j := source h List.mem_cons_self
    obtain ⟨new, w₁, run, gains, twin⟩ := adopt_gains wf hi (held h List.mem_cons_self)
    rw [here] at gains twin
    obtain ⟨hs', w₂, run', gains', all⟩ := ih gains.grows.wellFormed (gains.grows.size_eq ▸ hi)
      (fun a ha => (held a (List.mem_cons_of_mem h ha)).grow gains.grows)
      fun a ha => source a (List.mem_cons_of_mem h ha)
    rw [gains.others j apart] at gains' all
    obtain ⟨t, hs, hq⟩ := twin
    refine ⟨⟨i, new, h.kind⟩ :: hs', w₂, ?_, gains.trans gains',
      .cons ⟨rfl, rfl, t, hs, (gains'.grows.kept i).tree?_eq hq⟩ all⟩
    have first : bring i h w = .ok ⟨i, new, h.kind⟩ w₁ := bind_ok run
    rw [List.mapM_cons, bind_ok first, bind_ok run']
    rfl

theorem intern_new_at {kind : Kind} {node : Node Nat} (new : (w.pool i).find? kind node = none) :
    intern i kind node w =
      .ok ⟨i, (w.pool i).size, kind⟩ (w.setPool i ((w.pool i).withNode kind node)) := by
  rw [intern_run, Pool.intern, new]
  rfl

/-- A node of another pool, built at home from its brought children. -/
def rebuild (i j : Nat) (source : Pool) (e : Entry) : Build Handle := do
  let children ← (e.node.map (source.handle j)).mapM (bring i)
  ofNode i e.kind children

/-- With brought children, a node of another pool is added as its twin. -/
theorem ofNode_brought {source p : Pool} {id : Nat} {e : Entry} {m : Node (Handle × Handle)}
    (wf : p.WellFormed) (wfSource : source.WellFormed) (he : source.entry? id = some e)
    (left : e.node.map (source.handle j) = m.map (·.1))
    (brought : ∀ x ∈ m.children, Brought source p i x.1 x.2) :
    ∃ node, ofNode i e.kind (m.map (·.2)) = intern i e.kind node ∧
      (p.intern e.kind node).2.WellFormed ∧
      Pool.Twin source (p.intern e.kind node).2 id (p.intern e.kind node).1 := by
  let pairs := m.map fun x => (x.1.id, x.2.id)
  have ids : e.node = pairs.map (·.1) := by
    calc e.node = (e.node.map (source.handle j)).map (·.id) := by
          rw [Node.map_map]
          exact e.node.map_id'.symm
      _ = pairs.map (·.1) := by rw [left, Node.map_map, Node.map_map]; rfl
  have kinds : (m.map (·.2)).map (·.kind) = e.node.map source.kind := by
    calc (m.map (·.2)).map (·.kind) = (m.map (·.1)).map (·.kind) := by
          simp only [Node.map_map]
          exact Node.map_congr fun x hx => (brought x hx).2.1
      _ = e.node.map source.kind := by rw [← left, Node.map_map]; rfl
  have twins : ∀ x ∈ pairs.children, Pool.Twin source p x.1 x.2 := by
    intro x hx
    obtain ⟨y, hy, rfl⟩ := Node.mem_children_map.1 hx
    exact (brought y hy).2.2
  have home : ∀ h ∈ (m.map (·.2)).children, h.pool = i := by
    intro h hh
    obtain ⟨y, hy, rfl⟩ := Node.mem_children_map.1 hh
    exact (brought y hy).1
  refine ⟨pairs.map (·.2), ?_, wf.intern_twin wfSource he ids twins⟩
  rw [ofNode_eq_intern home (kinds ▸ wfSource.kinded id e he), Node.map_map, Node.map_map]
  rfl

/-- Building a node from its brought children adds the same trees as adopting it. -/
theorem rebuild_gains {id : Nat} {e : Entry} (wf : w.WellFormed) (hi : i < w.pools.size) (apart : j ≠ i)
    (he : Pool.entry? (w.pool j) id = some e) :
    ∃ new w', rebuild i j (w.pool j) e w = .ok ⟨i, new, e.kind⟩ w' ∧
      w.Gains i ((w.pool j).treesBelow id) w' ∧ Pool.Twin (w.pool j) (w'.pool i) id new := by
  have held : ∀ h ∈ (e.node.map ((w.pool j).handle j)).children, w.Holds h ∧ h.pool = j := by
    intro h hh
    obtain ⟨c, hc, rfl⟩ := Node.mem_children_map.1 hh
    have present := Nat.lt_trans ((wf j).descending id e he c hc) (Pool.entry?_lt he)
    exact ⟨Workspace.holds_handle present, rfl⟩
  obtain ⟨hs, w₁, run, gains, all⟩ := bringAll_gains apart wf hi (fun h hh => (held h hh).1)
    fun h hh => (held h hh).2
  obtain ⟨m, left, zipped, run'⟩ := mapM_children run all.length_eq
  have wf₁ := gains.grows.wellFormed
  have hi₁ : i < w₁.pools.size := gains.grows.size_eq ▸ hi
  obtain ⟨node, built, wf', twin⟩ := ofNode_brought (wf₁ i) (wf j) he left fun x hx =>
    (List.forall₂_iff_zip.1 all).2 (zipped ▸ hx)
  have last := wf₁.gains_setPool hi₁ wf' (Pool.extends_intern _ _ _) ((wf₁ i).trees_intern wf')
  refine ⟨((w₁.pool i).intern e.kind node).1, w₁.setPool i ((w₁.pool i).intern e.kind node).2,
    ?_, ?_, ?_⟩
  · rw [rebuild, bind_ok run', built, intern_run]
  · have both := gains.trans last
    obtain ⟨t, ht, hq⟩ := twin
    rw [hq, ← ht, Node.children_map, List.flatMap_map, ← (wf j).childList_eq he] at both
    rw [Pool.treesBelow_eq]
    exact both
  · rw [Workspace.pool_setPool hi₁, if_pos rfl]
    exact twin

end Build

/-! ### Adoption -/

/-- What the adoption of the node `id` of pool `j` by pool `i` does, if the result is `new`. -/
structure Workspace.Adopted (w : Workspace) (i j id new : Nat) (w' : Workspace) : Prop where
  /-- Only the receiving pool changes; the source does not. -/
  others : ∀ k, k ≠ i → w'.pool k = w.pool k
  /-- The receiving pool keeps its entries. -/
  kept : (w.pool i).Extends (w'.pool i)
  /-- The result is the one node there with the tree of the source's node. -/
  found : ∃ t, (w.pool j).tree? id = some t ∧ ∀ c, (w'.pool i).tree? c = some t ↔ c = new
  /-- The missing ones of the trees below the node are appended in the order of their first visit. -/
  gained : (w'.pool i).trees =
    (w.pool i).trees ++ (((w.pool j).treesBelow id).removeAll (w.pool i).trees).eraseDups
  /-- Whenever a node is copied, its children have been. -/
  mapped : ∀ before c after, (w.pool j).reachable [id] = before ++ c :: after →
    ∀ d, (w.pool j).Child c d →
      ∃ n, (before.foldl (Pool.adoptEntry (w.pool j)) ([], w.pool i)).1.lookup d = some n
  /-- The result is looked up as well. -/
  result : (((w.pool j).reachable [id]).foldl (Pool.adoptEntry (w.pool j)) ([], w.pool i)).1.lookup id =
    some new
  /-- Adopting the result back finds the node it came from, and adds nothing. -/
  back : ∀ kind, Build.adopt j ⟨i, new, kind⟩ w' = .ok id w'
  /-- Building the node from its adopted children gives the same number, and the same trees. -/
  rebuilt : ∀ e, Pool.entry? (w.pool j) id = some e →
    ∃ w'', Build.rebuild i j (w.pool j) e w = .ok ⟨i, new, e.kind⟩ w'' ∧
      (w''.pool i).trees = (w'.pool i).trees

namespace Session

variable {s : Session} {i j id : Nat}

/-- **Adoption is exact.**  In a reachable session, every node of a pool is adopted by every other pool as
the one node with its tree; missing trees are appended in the order of their first visit, and the way back
and the way over the node's children lead to the same numbers. -/
theorem Reachable.adopt_exact (reachable : s.Reachable) (receiver : s.HasPool i) (apart : i ≠ j)
    (present : id < (s.workspace.pool j).size) (kind : Kind) :
    ∃ new w', Build.adopt i ⟨j, id, kind⟩ s.workspace = .ok new w' ∧
      s.workspace.Adopted i j id new w' := by
  have wf := reachable.valid.wellFormed
  have held : s.workspace.Holds ((s.workspace.pool j).handle j id) := Workspace.holds_handle present
  obtain ⟨new, w', run, gains, t, ht, hq⟩ := Build.adopt_gains wf receiver held
  have ht : (s.workspace.pool j).tree? id = some t := ht
  have wf' := gains.grows.wellFormed
  have source : w'.pool j = s.workspace.pool j := gains.others j apart.symm
  refine ⟨new, w', run, ?_⟩
  constructor
  case others => exact gains.others
  case kept => exact gains.grows.kept i
  case found => exact ⟨t, ht, fun c => ⟨fun hc => (wf' i).tree_injective hc hq, fun hc => hc ▸ hq⟩⟩
  case gained => exact gains.gained
  case mapped =>
    intro before c after walk d child
    exact Pool.adoptEntries_lookup (wf i) (wf j) present walk (Pool.child_mem_before walk child)
  case result =>
    have copied : id ∈ (s.workspace.pool j).reachable [id] :=
      Pool.mem_reachable.2 ⟨id, List.mem_singleton_self id, .refl⟩
    obtain ⟨n, hn⟩ := Pool.adoptEntries_lookup (wf i) (wf j) present (List.append_nil _).symm copied
    rw [Build.adopt_run_foreign _ (Ne.symm apart)] at run
    have value : ((((s.workspace.pool j).reachable [id]).foldl (Pool.adoptEntry (s.workspace.pool j))
        ([], s.workspace.pool i)).1.lookup id).getD 0 = new := by
      injection run
    rw [hn, Option.getD_some] at value
    rw [hn, value]
  case back =>
    intro kind'
    have home : w'.Holds ((w'.pool i).handle i new) := Workspace.holds_handle (Pool.tree?_lt hq)
    have sender : j < w'.pools.size := gains.grows.size_eq ▸ held.1
    have twin : Pool.Twin (w'.pool i) (w'.pool j) new id := ⟨t, hq, by rw [source, ht]⟩
    show Build.adopt j ((w'.pool i).handle i new) w' = .ok id w'
    exact Build.adopt_present wf' sender home twin
  case rebuilt =>
    intro e he
    obtain ⟨new', w'', built, gains', twin⟩ := Build.rebuild_gains wf receiver apart.symm he
    have trees : (w''.pool i).trees = (w'.pool i).trees := gains'.gained.trans gains.gained.symm
    obtain ⟨t', ht', hq'⟩ := twin
    rw [Pool.tree?_eq_of_trees_eq trees, ← ht', ht] at hq'
    obtain rfl := (wf' i).tree_injective hq' hq
    exact ⟨w'', built, trees⟩

/-! ### A session with two pools -/

/-- The session with the uniform `phase` in two pools, the second of which also holds its double. -/
def twoPools : Session :=
  ⟨⟨#[Pool.empty.withNode .float (.uniform "phase"),
      (Pool.empty.withNode .float (.uniform "phase")).withNode .float (.operator .add 0 0)]⟩,
    [⟨0, 0, .float⟩, ⟨1, 1, .float⟩, ⟨1, 0, .float⟩], []⟩

theorem reachable_twoPools : twoPools.Reachable := by
  have start : Reachable ⟨⟨#[Pool.empty, Pool.empty]⟩, [], []⟩ := ⟨2, .refl⟩
  have first := start.handle (.addUniform "phase" .float Nat.one_lt_two)
    (Build.intern_new_at (by decide +kernel))
  have second := first.handle (.binary .add List.mem_cons_self List.mem_cons_self)
    (Build.intern_new_at (by decide +kernel))
  exact second.handle (.addUniform "phase" .float Nat.two_pos)
    (Build.intern_new_at (by decide +kernel))

/-- The first pool adopts the double, of which it holds a part. -/
theorem twoPools_adopt_exact :
    twoPools.Reachable ∧ 1 < (twoPools.workspace.pool 1).size ∧
      ∃ new w', Build.adopt 0 ⟨1, 1, .float⟩ twoPools.workspace = .ok new w' ∧
        twoPools.workspace.Adopted 0 1 1 new w' :=
  ⟨reachable_twoPools, by decide,
    reachable_twoPools.adopt_exact Nat.two_pos Nat.zero_ne_one (by decide) .float⟩

end Session

end ShaderDag
