import Mathlib.Data.Set.Card
import ShaderDag.Proofs.Lists
import ShaderDag.Proofs.Walk

/-!
# Expressions written out in full

A node occurs as often in expressions that are written out in full as there are paths to it from their
roots.

* `Pool.pathsTo` — the paths from some roots to a node, as lists of places among children;
* `Pool.fullWalk` — the nodes of expressions that are written out in full;
* `Visits.encard_pathsTo` — a node occurs there once for each path;
* `Visits.count_eq_add` — every occurrence is at a root or below an occurrence of a parent;
* `Visits.eq_eraseDups` — a walk that lets every node through once yields the nodes of the full walk in
  the order of their first occurrence;
* `Pool.mem_fullWalk` — the nodes that are written out.
-/

namespace ShaderDag

namespace Pool

variable {p : Pool} {keep : Nat → Bool} {r id : Nat} {rs : List Nat}

/-! ### Paths as places among children -/

/-- The node at the end of a path, which lists places among children from the top down.  Every node on
the path, the first and the last included, must be kept. -/
def follow? (p : Pool) (keep : Nat → Bool) : Nat → List Nat → Option Nat
  | id, [] => if keep id then some id else none
  | id, place :: path =>
    if keep id then (Walk.childList p id)[place]?.bind fun c => p.follow? keep c path else none

/-- The paths of kept nodes from one node to another. -/
def pathsFrom (p : Pool) (keep : Nat → Bool) (r id : Nat) : Set (List Nat) :=
  {path | p.follow? keep r path = some id}

/-- The paths of kept nodes from some roots to a node, each with the place of its root: a root that is
listed twice starts two paths. -/
def pathsTo (p : Pool) (keep : Nat → Bool) (roots : List Nat) (id : Nat) : Set (Nat × List Nat) :=
  {path | ∃ r, roots[path.1]? = some r ∧ p.follow? keep r path.2 = some id}

theorem encard_pathsTo_nil : (p.pathsTo keep [] id).encard = 0 := by
  rw [Set.encard_eq_zero, Set.eq_empty_iff_forall_notMem]
  rintro path ⟨r, hr, -⟩
  simp at hr

/-- A path starts at the first root or at a later one. -/
theorem encard_pathsTo_cons :
    (p.pathsTo keep (r :: rs) id).encard =
      (p.pathsFrom keep r id).encard + (p.pathsTo keep rs id).encard := by
  have first : Function.Injective fun path : List Nat => (0, path) :=
    fun _ _ same => (Prod.mk.inj same).2
  have later : Function.Injective fun path : Nat × List Nat => (path.1 + 1, path.2) := by
    intro a b same
    simp only [Prod.mk.injEq, Nat.add_right_cancel_iff] at same
    exact Prod.ext same.1 same.2
  have split : p.pathsTo keep (r :: rs) id =
      (fun path => (0, path)) '' p.pathsFrom keep r id ∪
        (fun path => (path.1 + 1, path.2)) '' p.pathsTo keep rs id := by
    ext ⟨place, path⟩
    cases place with
    | zero => simp [pathsTo, pathsFrom]
    | succ place => simp [pathsTo]
  rw [split, Set.encard_union_eq, first.encard_image, later.encard_image]
  rw [Set.disjoint_left]
  rintro _ ⟨a, -, rfl⟩ ⟨b, -, same⟩
  simp at same

theorem encard_pathsFrom_dropped (dropped : keep r = false) : (p.pathsFrom keep r id).encard = 0 := by
  rw [Set.encard_eq_zero, Set.eq_empty_iff_forall_notMem]
  intro path h
  cases path <;> simp [pathsFrom, follow?, dropped] at h

/-- A path from a kept node ends there, or goes on from one of its children. -/
theorem encard_pathsFrom_kept (kept : keep r = true) :
    (p.pathsFrom keep r id).encard =
      (if r = id then 1 else 0) + (p.pathsTo keep (Walk.childList p r) id).encard := by
  have deeper : Function.Injective fun path : Nat × List Nat => path.1 :: path.2 := by
    intro a b same
    simp only [List.cons.injEq] at same
    exact Prod.ext same.1 same.2
  have split : p.pathsFrom keep r id =
      {path | path = [] ∧ r = id} ∪
        (fun path => path.1 :: path.2) '' p.pathsTo keep (Walk.childList p r) id := by
    ext path
    cases path with
    | nil => simp [pathsFrom, follow?, kept]
    | cons place path => simp [pathsFrom, pathsTo, follow?, kept, Option.bind_eq_some_iff]
  rw [split, Set.encard_union_eq, deeper.encard_image]
  · congr 1
    split <;> simp_all
  · rw [Set.disjoint_left]
    rintro _ ⟨rfl, -⟩ ⟨b, -, same⟩
    simp at same

/-- What leads somewhere still does if more nodes are kept. -/
theorem follow?_mono {keep' : Nat → Bool} (more : ∀ c, keep' c = true → keep c = true) {path : List Nat}
    (h : p.follow? keep' r path = some id) : p.follow? keep r path = some id := by
  induction path generalizing r with
  | nil =>
    rw [follow?] at h ⊢
    split at h
    · next kept => rwa [if_pos (more r kept)]
    · cases h
  | cons place path ih =>
    rw [follow?] at h ⊢
    split at h
    · next kept =>
      obtain ⟨c, hc, rest⟩ := Option.bind_eq_some_iff.1 h
      rw [if_pos (more r kept), hc]
      exact ih rest
    · cases h

/-! ### Expressions written out in full -/

/-- The nodes of the expressions at some roots, written out in full: one walk after the other, with a
node yielded at every place where it stands.  A node that is not kept is left out with all below it. -/
def fullWalk (p : Pool) (keep : Nat → Bool) (roots : List Nat) : List Nat :=
  roots.flatMap fun r => (p.walk (askIf keep) r ()).1

theorem visits_fullWalk (p : Pool) (keep : Nat → Bool) (roots : List Nat) :
    Visits p (askIf keep) roots () (p.fullWalk keep roots) () := by
  rw [visits_iff]
  induction roots with
  | nil => rfl
  | cons r rs ih =>
    rw [walkAll_cons, ih]
    rfl

theorem fullWalk_eq_flatMap (p : Pool) (keep : Nat → Bool) (ids : List Nat) :
    p.fullWalk keep ids = ids.flatMap fun id => p.fullWalk keep [id] := by
  simp only [fullWalk, List.flatMap_singleton]

theorem fullWalk_cons (p : Pool) (keep : Nat → Bool) (id : Nat) (ids : List Nat) :
    p.fullWalk keep (id :: ids) = p.fullWalk keep [id] ++ p.fullWalk keep ids := by
  rw [p.fullWalk_eq_flatMap, List.flatMap_cons, ← p.fullWalk_eq_flatMap]

/-- Below a bound, the kept children of the known nodes are known. -/
def ClosedBelow (p : Pool) (keep : Nat → Bool) (known : List Nat) (bound : Nat) : Prop :=
  ∀ a ∈ known, a < bound → ∀ c, p.Child a c → keep c = true → c ∈ known

end Pool

namespace Visits

variable {p : Pool} {keep : Nat → Bool} {ids ys : List Nat} {id c : Nat}

section Full

variable {σ : Type} {s s' : σ}

theorem askIf_eq (keep : Nat → Bool) (id : Nat) (s : σ) : askIf keep id s = (keep id, s) := rfl

/-- **A node occurs once for each path.** -/
theorem encard_pathsTo (h : Visits p (askIf keep) ids s ys s') (id : Nat) :
    (p.pathsTo keep ids id).encard = ys.count id := by
  induction h with
  | done s => exact Pool.encard_pathsTo_nil
  | @skip r ids ys s s₁ s₂ closed _ ih =>
    have dropped : keep r = false := congrArg Prod.fst closed
    rw [Pool.encard_pathsTo_cons, Pool.encard_pathsFrom_dropped dropped, ih, zero_add]
  | @enter r ids below ys s s₁ s₂ s₃ opened _ _ ihInner ihRest =>
    have kept : keep r = true := congrArg Prod.fst opened
    have total : (below ++ r :: ys).count id =
        (if r = id then 1 else 0) + below.count id + ys.count id := by
      rw [List.count_append, List.count_cons]
      simp only [beq_iff_eq]
      omega
    rw [Pool.encard_pathsTo_cons, Pool.encard_pathsFrom_kept kept, ihInner, ihRest, total]
    push_cast
    rfl

/-- Every occurrence of a kept node is at a root or below an occurrence of a parent. -/
theorem count_eq_add (h : Visits p (askIf keep) ids s ys s') (kept : keep c = true) :
    ys.count c = ids.count c + (ys.flatMap (Walk.childList p)).count c := by
  induction h with
  | done s => rfl
  | @skip r ids ys s s₁ s₂ closed _ ih =>
    have dropped : keep r = false := congrArg Prod.fst closed
    have other : r ≠ c := by
      rintro rfl
      rw [kept] at dropped
      cases dropped
    rw [List.count_cons_of_ne other, ih]
  | @enter r ids below ys s s₁ s₂ s₃ opened _ _ ihInner ihRest =>
    simp only [List.count_append, List.count_cons, List.flatMap_append, List.flatMap_cons, ihInner,
      ihRest]
    omega

/-- Nodes that are closed under children, and hold the kept roots, hold all that is written out. -/
theorem subset_of_closed {known : List Nat} {bound : Nat} (h : Visits p (askIf keep) ids s ys s')
    (closed : p.ClosedBelow keep known bound) (small : ∀ r ∈ ids, r < bound)
    (roots : ∀ r ∈ ids, keep r = true → r ∈ known) : ∀ c ∈ ys, c ∈ known := by
  induction h with
  | done s => simp
  | skip _ _ ih =>
    exact ih (fun r hr => small r (List.mem_cons_of_mem _ hr)) fun r hr =>
      roots r (List.mem_cons_of_mem _ hr)
  | @enter r ids below ys s s₁ s₂ s₃ opened _ _ ihInner ihRest =>
    have kept : keep r = true := congrArg Prod.fst opened
    have hr : r ∈ known := roots r List.mem_cons_self kept
    have bounded : r < bound := small r List.mem_cons_self
    intro c hc
    rcases List.mem_append.1 hc with hc | hc
    · exact ihInner (fun d hd => Nat.lt_trans (Pool.Child.lt hd) bounded) (closed r hr bounded) c hc
    · rcases List.mem_cons.1 hc with rfl | hc
      · exact hr
      · exact ihRest (fun d hd => small d (List.mem_cons_of_mem _ hd))
          (fun d hd => roots d (List.mem_cons_of_mem _ hd)) c hc

end Full

/-! ### Every node once, in the order of the full walk -/

theorem askOnceIf_closed {s s₁ : List Nat} (h : askOnceIf keep id s = (false, s₁)) :
    s₁ = s ∧ (keep id = true → id ∈ s) := by
  unfold askOnceIf askOnce at h
  split at h
  · split at h
    · next seen =>
      cases h
      exact ⟨rfl, fun _ => List.contains_iff_mem.1 seen⟩
    · cases h
  · next dropped =>
    cases h
    exact ⟨rfl, fun kept => absurd kept dropped⟩

theorem askOnceIf_opened {s s₁ : List Nat} (h : askOnceIf keep id s = (true, s₁)) :
    s₁ = id :: s ∧ keep id = true ∧ id ∉ s := by
  unfold askOnceIf askOnce at h
  split at h
  · next kept =>
    split at h
    · cases h
    · next unseen =>
      cases h
      exact ⟨rfl, kept, fun mem => unseen (List.contains_iff_mem.2 mem)⟩
  · cases h

end Visits

namespace Pool

variable {p : Pool} {keep : Nat → Bool} {roots : List Nat} {id : Nat}

theorem fullWalk_kept (kept : keep id = true) :
    p.fullWalk keep [id] = p.fullWalk keep (Walk.childList p id) ++ [id] := by
  have children := (p.visits_fullWalk keep (Walk.childList p id)).walkAll_eq
  rw [fullWalk, List.flatMap_singleton, walk_eq, Visits.askIf_eq, if_pos kept, children]

theorem fullWalk_dropped (dropped : keep id = false) : p.fullWalk keep [id] = [] := by
  rw [fullWalk, List.flatMap_singleton, walk_eq, Visits.askIf_eq, dropped]
  rfl

theorem fullWalk_eq_nil (dropped : ∀ r ∈ roots, keep r = false) : p.fullWalk keep roots = [] := by
  rw [fullWalk_eq_flatMap, List.flatMap_eq_nil_iff]
  exact fun r hr => fullWalk_dropped (dropped r hr)

/-- Below a kept node stand smaller nodes only. -/
theorem lt_of_mem_fullWalk {c : Nat} (h : c ∈ p.fullWalk keep (Walk.childList p id)) : c < id := by
  have closed : p.ClosedBelow keep (List.range id) id := fun a ha _ c hc _ =>
    List.mem_range.2 (Nat.lt_trans hc.lt (List.mem_range.1 ha))
  have mem := (p.visits_fullWalk keep (Walk.childList p id)).subset_of_closed closed
    (fun r hr => Child.lt hr) (fun r hr _ => List.mem_range.2 (Child.lt hr)) c h
  exact List.mem_range.1 mem

/-- Fewer nodes are written out if fewer are kept. -/
theorem count_fullWalk_le (p : Pool) {keep keep' : Nat → Bool}
    (more : ∀ c, keep' c = true → keep c = true) (roots : List Nat) (id : Nat) :
    (p.fullWalk keep' roots).count id ≤ (p.fullWalk keep roots).count id := by
  have paths : p.pathsTo keep' roots id ⊆ p.pathsTo keep roots id := by
    rintro path ⟨r, hr, leads⟩
    exact ⟨r, hr, follow?_mono more leads⟩
  have cards := Set.encard_le_encard paths
  rw [(p.visits_fullWalk keep' roots).encard_pathsTo,
    (p.visits_fullWalk keep roots).encard_pathsTo] at cards
  exact_mod_cast cards

/-- Every occurrence of a parent brings one of each child. -/
theorem Child.count_le_count_flatMap {a b : Nat} (step : p.Child a b) (xs : List Nat) :
    xs.count a ≤ (xs.flatMap (Walk.childList p)).count b := by
  induction xs with
  | nil => exact Nat.le_refl 0
  | cons x xs ih =>
    rw [List.flatMap_cons, List.count_append, List.count_cons]
    split
    · next same =>
      have here : 0 < (Walk.childList p x).count b := List.count_pos_iff.2 (beq_iff_eq.1 same ▸ step)
      omega
    · omega

end Pool

namespace Visits

variable {p : Pool} {keep : Nat → Bool} {ids ys s s' : List Nat}

/-- When a node is let through, the known nodes stay closed below it. -/
theorem closed_enter {id bound : Nat} (closed : p.ClosedBelow keep s bound) (bounded : id < bound) :
    p.ClosedBelow keep (id :: s) id := by
  intro a ha small c hc hk
  rcases List.mem_cons.1 ha with rfl | ha
  · exact absurd small (Nat.lt_irrefl a)
  · exact List.mem_cons_of_mem _ (closed a ha (Nat.lt_trans small bounded) c hc hk)

/-- When all below the node has been visited, the known nodes are closed below the old bound again. -/
theorem closed_leave {id bound : Nat} {below s₂ : List Nat} (closed : p.ClosedBelow keep s bound)
    (inner : Visits p (askOnceIf keep) (Walk.childList p id) (id :: s) below s₂) :
    p.ClosedBelow keep s₂ bound := by
  have gate := askOnceIf_gate keep
  have passed : ∀ c, c ∈ s₂ ↔ c ∈ id :: s ∨ c ∈ below := inner.mem_passed gate
  intro a ha small c hc hk
  rw [passed] at ha ⊢
  rcases ha with ha | ha
  · rcases List.mem_cons.1 ha with rfl | ha
    · exact (passed c).1 (inner.roots_passed gate c hc hk)
    · exact .inl (List.mem_cons_of_mem _ (closed a ha small c hc hk))
  · exact (inner.children_first gate).child_mem ha hc hk

/-- **First occurrences.**  A run that lets every node through once yields what the full walk does, less
the nodes that were let through before and all repetitions.  The nodes that were let through before must
be closed under children below a bound of the pending nodes; above it are their unfinished parents. -/
theorem eq_eraseDups {bound : Nat} (h : Visits p (askOnceIf keep) ids s ys s')
    (closed : p.ClosedBelow keep s bound) (small : ∀ id ∈ ids, id < bound) :
    ys = ((p.fullWalk keep ids).removeAll s).eraseDups := by
  induction h generalizing bound with
  | done s => rfl
  | @skip id ids ys s s₁ s₂ refused _ ih =>
    obtain ⟨rfl, known⟩ := askOnceIf_closed refused
    rw [List.forall_mem_cons] at small
    have old : ∀ c ∈ p.fullWalk keep [id], c ∈ s₁ :=
      (p.visits_fullWalk keep [id]).subset_of_closed closed (List.forall_mem_singleton.2 small.1)
        (List.forall_mem_singleton.2 known)
    rw [Pool.fullWalk_cons, removeAll_append, removeAll_eq_nil old, List.nil_append]
    exact ih closed small.2
  | @enter id ids below ys s s₁ s₂ s₃ opened inner _ ihInner ihRest =>
    obtain ⟨rfl, kept, fresh⟩ := askOnceIf_opened opened
    rw [List.forall_mem_cons] at small
    -- the node itself is above all that its children lead to, so it does not interfere with them
    have above : id ∉ p.fullWalk keep (Walk.childList p id) := fun mem =>
      Nat.lt_irrefl id (Pool.lt_of_mem_fullWalk mem)
    have first : below = ((p.fullWalk keep (Walk.childList p id)).removeAll s).eraseDups := by
      rw [ihInner (closed_enter closed small.1) fun c hc => Pool.Child.lt hc]
      refine congrArg List.eraseDups (removeAll_congr fun c hc => ?_)
      rw [List.mem_cons, or_iff_right]
      rintro rfl
      exact above hc
    have members : ∀ c, c ∈ s₂ ↔ c ∈ id :: s ∨ c ∈ p.fullWalk keep (Walk.childList p id) := by
      intro c
      have passed : c ∈ s₂ ↔ c ∈ id :: s ∨ c ∈ below := inner.mem_passed (askOnceIf_gate keep) c
      rw [passed, first, List.mem_eraseDups]
      simp only [List.removeAll, List.mem_filter, List.mem_cons]
      grind
    rw [Pool.fullWalk_cons, Pool.fullWalk_kept kept, eraseDups_removeAll_around fresh above members,
      ← first, ← ihRest (closed_leave closed inner) small.2]

end Visits

/-- The nodes that are written out are those on paths of kept nodes. -/
theorem Pool.mem_fullWalk {p : Pool} {keep : Nat → Bool} {roots : List Nat} {c : Nat} :
    c ∈ p.fullWalk keep roots ↔ keep c = true ∧ ∃ r ∈ roots, p.ReachesBy (keep ·) r c := by
  have once : Visits p (askOnceIf keep) roots [] _ _ := visits_iff.2 rfl
  have closed : p.ClosedBelow keep [] (roots.max?.getD 0 + 1) := by simp [ClosedBelow]
  have first := once.eq_eraseDups closed fun id hid => Nat.lt_succ_of_le (List.le_max?_getD_of_mem hid)
  rw [List.removeAll_nil] at first
  rw [← List.mem_eraseDups, ← first]
  exact once.mem_iff (askOnceIf_gate keep) rfl c

end ShaderDag
