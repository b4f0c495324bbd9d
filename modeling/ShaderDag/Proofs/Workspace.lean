import ShaderDag.Graph.Build
import ShaderDag.Proofs.Pool

/-!
# Workspaces grow

Every construction adds entries to one pool and leaves the others alone.  An adopted node stands for
the same tree in its new pool.

* `Pool.WellFormed.adopt` — adopting keeps a pool well-formed and the tree of the node;
* `Workspace.Grows` — well-formed pools that kept all their entries;
* `Workspace.Holds` — a handle whose node is there, with the handle's kind;
* `Build.Ensures` — what an action does to a workspace, whether it fails or not.
-/

namespace ShaderDag

/-- The kind at the top of a tree. -/
def Tree.kind : Tree → Kind
  | .node kind _ => kind

namespace Pool

variable {p q source : Pool} {id : Nat}

theorem kind_of_tree {t : Tree} (h : p.tree? id = some t) : p.kind id = t.kind := by
  cases t with
  | node kind operation =>
    obtain ⟨e, he, -, -, rfl⟩ := tree?_eq_some_iff.1 h
    exact kind_eq he

/-! ### Adoption -/

/-- The nodes that have been moved so far stand for the same trees on both sides. -/
def Moved (source : Pool) (moved : List (Nat × Nat)) (p : Pool) : Prop :=
  ∀ old new, moved.lookup old = some new → ∃ t, source.tree? old = some t ∧ p.tree? new = some t

/-- One step of an adoption: the children have been moved, so the node becomes the same tree. -/
theorem adoptEntry_spec {moved : List (Nat × Nat)} (wfSource : source.WellFormed)
    (wf : p.WellFormed) (same : Moved source moved p) (hid : id < source.size)
    (ready : ∀ c, source.Child id c → ∃ new, moved.lookup c = some new) :
    ∃ new q, adoptEntry source (moved, p) id = ((id, new) :: moved, q) ∧ q.WellFormed ∧
      p.Extends q ∧ Moved source ((id, new) :: moved) q := by
  obtain ⟨e, he⟩ := exists_entry hid
  obtain ⟨⟨kind, operation⟩, ht⟩ := wfSource.exists_tree hid
  obtain ⟨e', he', below, trees, rfl⟩ := tree?_eq_some_iff.1 ht
  cases he.symm.trans he'
  let node := e.node.map fun c => (moved.lookup c).getD 0
  -- each child's new number stands for the child's tree
  have child : ∀ c ∈ e.node.children, ∃ t, source.tree? c = some t ∧
      p.tree? ((moved.lookup c).getD 0) = some t := by
    intro c hc
    have edge : source.Child id c := by rwa [Child, wfSource.childList_eq he]
    obtain ⟨new, hnew⟩ := ready c edge
    rw [hnew]
    exact same c new hnew
  have ok : p.Admits e.kind node := by
    refine ⟨?_, ?_⟩
    · intro c hc
      rw [Node.children_map, List.mem_map] at hc
      obtain ⟨old, hold, rfl⟩ := hc
      obtain ⟨t, -, hp⟩ := child old hold
      exact tree?_lt hp
    · rw [Node.map_map, Node.map_congr (g := source.kind)]
      · exact wfSource.kinded id e he
      · intro c hc
        obtain ⟨t, hs, hp⟩ := child c hc
        rw [Function.comp_apply, kind_of_tree hs, kind_of_tree hp]
  obtain ⟨f, hf, kinds, nodes⟩ := p.entry?_intern e.kind node
  have grown := p.extends_intern e.kind node
  have wf' := wf.intern ok
  refine ⟨(p.intern e.kind node).1, (p.intern e.kind node).2, ?_, wf', grown, ?_⟩
  · simp only [adoptEntry, he]
    rfl
  · intro old new hnew
    by_cases hold : old = id
    · subst hold
      rw [List.lookup_cons_self, Option.some.injEq] at hnew
      subst hnew
      refine ⟨_, ht, tree?_eq_some_iff.2 ⟨f, hf, wf'.descending _ f hf, ?_, kinds⟩⟩
      rw [nodes, Node.map_map, ← trees]
      refine Node.map_congr fun c hc => ?_
      obtain ⟨t, hs, hp⟩ := child c hc
      rw [Function.comp_apply, hs, grown.tree?_eq hp]
    · rw [List.lookup_cons, beq_false_of_ne hold] at hnew
      obtain ⟨t, hs, hp⟩ := same old new hnew
      exact ⟨t, hs, grown.tree?_eq hp⟩

/-- A run of an adoption over nodes whose children come first. -/
theorem adoptEntries_spec (wfSource : source.WellFormed) :
    ∀ (ids : List Nat) (moved : List (Nat × Nat)) (p : Pool), p.WellFormed → Moved source moved p →
      (∀ id ∈ ids, id < source.size) → ChildrenFirst source (fun _ => true) (moved.map (·.1)) ids →
      ∃ moved' q, ids.foldl (adoptEntry source) (moved, p) = (moved', q) ∧ q.WellFormed ∧
        p.Extends q ∧ Moved source moved' q ∧ ∀ id ∈ ids ++ moved.map (·.1), id ∈ moved'.map (·.1) := by
  intro ids
  induction ids with
  | nil => exact fun moved p wf same _ _ => ⟨moved, p, rfl, wf, .refl p, same, fun id hid => hid⟩
  | cons id ids ih =>
    intro moved p wf same present first
    have ready : ∀ c, source.Child id c → ∃ new, moved.lookup c = some new := fun c hc =>
      exists_lookup (first.1 c hc rfl)
    obtain ⟨new, q, run, wf', grown, same'⟩ := adoptEntry_spec wfSource wf same
      (present id List.mem_cons_self) ready
    obtain ⟨moved', r, run', wf'', grown', same'', keys⟩ := ih ((id, new) :: moved) q wf' same'
      (fun i hi => present i (List.mem_cons_of_mem id hi)) first.2
    refine ⟨moved', r, by rw [List.foldl_cons, run, run'], wf'', grown.trans grown', same'', ?_⟩
    intro i hi
    exact keys i (by simp at hi ⊢; grind)

/-- **Adoption keeps the tree.** -/
theorem WellFormed.adopt (wf : p.WellFormed) (wfSource : source.WellFormed) (hid : id < source.size) :
    (p.adopt source id).2.WellFormed ∧ p.Extends (p.adopt source id).2 ∧
      ∃ t, source.tree? id = some t ∧ (p.adopt source id).2.tree? (p.adopt source id).1 = some t := by
  have present : ∀ c ∈ source.reachable [id], c < source.size := by
    intro c hc
    obtain ⟨r, hr, path⟩ := mem_reachable.1 hc
    rw [List.mem_singleton] at hr
    exact path.lt_size (hr ▸ hid)
  obtain ⟨moved, q, run, wf', grown, same, keys⟩ := adoptEntries_spec wfSource (source.reachable [id])
    [] p wf (fun old new h => by simp at h) present (childrenFirst_reachable source [id])
  have there : id ∈ moved.map (·.1) := keys id (List.mem_append_left _
    (mem_reachable.2 ⟨id, List.mem_singleton_self id, .refl⟩))
  obtain ⟨new, hnew⟩ := exists_lookup there
  obtain ⟨t, hs, hq⟩ := same id new hnew
  simp only [Pool.adopt, run, hnew, Option.getD_some]
  exact ⟨wf', grown, t, hs, hq⟩

end Pool

/-! ### Workspaces -/

namespace Workspace

variable {w w' w'' : Workspace} {i pool id : Nat} {kind : Kind} {h : Handle}

/-- Every pool is well-formed. -/
def WellFormed (w : Workspace) : Prop := ∀ i, (w.pool i).WellFormed

/-- Later pools: as many, well-formed, and each with all earlier entries. -/
structure Grows (w w' : Workspace) : Prop where
  wellFormed : w'.WellFormed
  size_eq : w'.pools.size = w.pools.size
  kept : ∀ i, (w.pool i).Extends (w'.pool i)

theorem WellFormed.grows_refl (wf : w.WellFormed) : w.Grows w := ⟨wf, rfl, fun i => .refl (w.pool i)⟩

theorem Grows.trans (g : w.Grows w') (g' : w'.Grows w'') : w.Grows w'' :=
  ⟨g'.wellFormed, g'.size_eq.trans g.size_eq, fun i => (g.kept i).trans (g'.kept i)⟩

theorem wellFormed_empty (pools : Nat) : (empty pools).WellFormed := by
  intro i
  have : (empty pools).pool i = .empty := by
    by_cases hi : i < pools <;> simp [pool, empty, Array.getD, hi]
  rw [this]
  exact Pool.wellFormed_empty

theorem pool_setPool {p : Pool} (hi : i < w.pools.size) (j : Nat) :
    (w.setPool i p).pool j = if j = i then p else w.pool j := by
  simp only [pool, setPool, Array.getD_eq_getD_getElem?, Array.getElem?_setIfInBounds]
  by_cases hj : j = i
  · subst hj
    simp [hi]
  · simp [hj, Ne.symm hj]

theorem WellFormed.setPool {p : Pool} (wf : w.WellFormed) (hi : i < w.pools.size)
    (hp : p.WellFormed) (kept : (w.pool i).Extends p) : w.Grows (w.setPool i p) := by
  refine ⟨fun j => ?_, by simp [Workspace.setPool], fun j => ?_⟩
  · rw [pool_setPool hi]
    split
    · exact hp
    · exact wf j
  · rw [pool_setPool hi]
    split
    · next same => exact same ▸ kept
    · exact .refl (w.pool j)

/-- A pool holds a node of a kind. -/
def Has (w : Workspace) (pool id : Nat) (kind : Kind) : Prop :=
  pool < w.pools.size ∧ ∃ e, Pool.entry? (w.pool pool) id = some e ∧ e.kind = kind

/-- A handle's pool holds its node, of the handle's kind. -/
def Holds (w : Workspace) (h : Handle) : Prop := w.Has h.pool h.id h.kind

theorem Has.grow (has : w.Has pool id kind) (g : w.Grows w') : w'.Has pool id kind := by
  obtain ⟨hpool, e, he, hk⟩ := has
  exact ⟨g.size_eq ▸ hpool, e, g.kept pool id e he, hk⟩

theorem Has.lt (has : w.Has pool id kind) : id < (w.pool pool).size := by
  obtain ⟨-, e, he, -⟩ := has
  exact Pool.entry?_lt he

theorem Has.kind_eq (has : w.Has pool id kind) : (w.pool pool).kind id = kind := by
  obtain ⟨-, e, he, rfl⟩ := has
  exact Pool.kind_eq he

end Workspace

/-! ### What actions ensure -/

namespace Build

variable {w : Workspace} {pool : Nat}

/-- An action grows the workspace, whether it fails or not, and its result satisfies `post`. -/
def Ensures (action : Build α) (w : Workspace) (post : α → Workspace → Prop) : Prop :=
  match action w with
  | .ok a w' => w.Grows w' ∧ post a w'
  | .error _ w' => w.Grows w'

section Rules

variable {P Q : α → Workspace → Prop} {R : β → Workspace → Prop}

theorem Ensures.grows_ok {action : Build α} {a : α} {w' : Workspace} (h : Ensures action w P)
    (run : action w = .ok a w') : w.Grows w' ∧ P a w' := by
  rw [Ensures, run] at h
  exact h

theorem Ensures.grows_error {action : Build α} {f : Failure} {w' : Workspace}
    (h : Ensures action w P) (run : action w = .error f w') : w.Grows w' := by
  rw [Ensures, run] at h
  exact h

theorem ensures_pure {a : α} (wf : w.WellFormed) (h : P a w) : Ensures (pure a) w P :=
  ⟨wf.grows_refl, h⟩

theorem ensures_fail (cause : Cause) (wf : w.WellFormed) : Ensures (fail cause) w P :=
  wf.grows_refl

theorem Ensures.bind {action : Build α} {next : α → Build β} (h : Ensures action w P)
    (then' : ∀ a w', w.Grows w' → P a w' → Ensures (next a) w' R) :
    Ensures (action >>= next) w R := by
  simp only [Ensures, Bind.bind, EStateM.bind]
  cases run : action w with
  | ok a w' =>
    obtain ⟨grown, hp⟩ := h.grows_ok run
    have rest := then' a w' grown hp
    dsimp only
    cases run' : next a w' with
    | ok b w'' =>
      obtain ⟨grown', hr⟩ := rest.grows_ok run'
      exact ⟨grown.trans grown', hr⟩
    | error f w'' => exact grown.trans (rest.grows_error run')
  | error f w' => exact h.grows_error run

theorem Ensures.mono {action : Build α} (h : Ensures action w P)
    (weaker : ∀ a w', w.Grows w' → P a w' → Q a w') : Ensures action w Q := by
  unfold Ensures at h ⊢
  split at h
  · exact ⟨h.1, weaker _ _ h.1 h.2⟩
  · exact h

theorem Ensures.adaptExcept {action : Build α} (change : Failure → Failure)
    (h : Ensures action w P) : Ensures (EStateM.adaptExcept change action) w P := by
  simp only [Ensures, EStateM.adaptExcept]
  cases run : action w with
  | ok a w' => exact h.grows_ok run
  | error f w' => exact h.grows_error run

end Rules

/-! ### Adding and adopting -/

theorem intern_run (w : Workspace) (pool : Nat) (kind : Kind) (node : Node Nat) :
    intern pool kind node w = .ok ⟨pool, ((w.pool pool).intern kind node).1, kind⟩
      (w.setPool pool ((w.pool pool).intern kind node).2) := rfl

theorem adopt_run_home (w : Workspace) (h : Handle) : adopt h.pool h w = .ok h.id w := by
  simp only [adopt, if_true]
  rfl

theorem adopt_run_foreign {h : Handle} (w : Workspace) (foreign : h.pool ≠ pool) :
    adopt pool h w = .ok ((w.pool pool).adopt (w.pool h.pool) h.id).1
      (w.setPool pool ((w.pool pool).adopt (w.pool h.pool) h.id).2) := by
  simp only [adopt, foreign, if_false]
  rfl

theorem ensures_intern {kind : Kind} {node : Node Nat} (wf : w.WellFormed)
    (hpool : pool < w.pools.size) (ok : (w.pool pool).Admits kind node) :
    Ensures (intern pool kind node) w fun h w' => h.pool = pool ∧ h.kind = kind ∧ w'.Holds h := by
  rw [Ensures, intern_run]
  refine ⟨wf.setPool hpool ((wf pool).intern ok) (Pool.extends_intern _ _ _), rfl, rfl, ?_, ?_⟩
  · simpa [Workspace.setPool] using hpool
  · obtain ⟨e, he, hk, -⟩ := Pool.entry?_intern (w.pool pool) kind node
    exact ⟨e, by rw [Workspace.pool_setPool hpool, if_pos rfl, he], hk⟩

theorem ensures_adopt {h : Handle} (wf : w.WellFormed) (hpool : pool < w.pools.size)
    (held : w.Holds h) : Ensures (adopt pool h) w fun id w' => w'.Has pool id h.kind := by
  by_cases home : h.pool = pool
  · subst home
    rw [Ensures, adopt_run_home]
    exact ⟨wf.grows_refl, held⟩
  · rw [Ensures, adopt_run_foreign w home]
    obtain ⟨wf', kept, t, hs, hq⟩ := (wf pool).adopt (wf h.pool) held.lt
    refine ⟨wf.setPool hpool wf' kept, by simpa [Workspace.setPool] using hpool, ?_⟩
    obtain ⟨e, he⟩ := Pool.exists_entry (Pool.tree?_lt hq)
    refine ⟨e, by rw [Workspace.pool_setPool hpool, if_pos rfl, he], ?_⟩
    rw [← Pool.kind_eq he, Pool.kind_of_tree hq, ← Pool.kind_of_tree hs, held.kind_eq]

/-- Handles are adopted one by one, with their kinds. -/
theorem ensures_adoptAll (hpool : pool < w.pools.size) :
    ∀ {args : List Handle} {w' : Workspace}, w.Grows w' → (∀ h ∈ args, w'.Holds h) →
      Ensures (args.mapM (adopt pool)) w' fun ids w'' =>
        List.Forall₂ (w''.Has pool) ids (args.map (·.kind)) := by
  intro args
  induction args with
  | nil => exact fun grown _ => ensures_pure grown.wellFormed .nil
  | cons h args ih =>
    intro w' grown held
    rw [List.mapM_cons]
    have hpool' : pool < w'.pools.size := grown.size_eq ▸ hpool
    refine (ensures_adopt grown.wellFormed hpool' (held h List.mem_cons_self)).bind
      fun id w₁ g₁ has => ?_
    refine (ih (grown.trans g₁) fun a ha => (held a (List.mem_cons_of_mem h ha)).grow g₁).bind
      fun ids w₂ g₂ all => ?_
    exact ensures_pure g₂.wellFormed (.cons (has.grow g₂) all)

end Build

end ShaderDag
