import ShaderDag.Graph.Occurrence
import ShaderDag.Proofs.Walk

/-!
# Which nodes a tally lists

Path counts are added to the nodes of a walk that visits each node once; the counts change, the nodes
and their order do not.

* `Occurrences.order_ofRoots` — a tally lists the nodes of the walk, in its order;
* `Occurrences.nodup_shared`, `Occurrences.shared_sound` — what follows for the nodes that occur more
  than once.
-/

namespace ShaderDag

namespace Occurrences

variable {p : Pool} {keep : Nat → Bool} {roots : List Nat}

/-! ### Counts leave the order alone -/

@[simp] theorem keys_addTo (id more : Nat) (entries : List (Nat × Nat)) :
    (addTo id more entries).map (·.1) = entries.map (·.1) := by
  induction entries with
  | nil => rfl
  | cons entry entries ih =>
    obtain ⟨key, count⟩ := entry
    rw [addTo]
    split
    · rfl
    · rw [List.map_cons, List.map_cons, ih]

@[simp] theorem keys_pushCount (p : Pool) (entries : List (Nat × Nat)) (id : Nat) :
    (pushCount p entries id).map (·.1) = entries.map (·.1) := by
  rw [pushCount]
  generalize (entries.lookup id).getD 0 = paths
  induction Walk.childList p id generalizing entries with
  | nil => rfl
  | cons c cs ih => rw [List.foldl_cons, ih, keys_addTo]

@[simp] theorem keys_foldl_pushCount (p : Pool) (ids : List Nat) (entries : List (Nat × Nat)) :
    (ids.foldl (pushCount p) entries).map (·.1) = entries.map (·.1) := by
  induction ids generalizing entries with
  | nil => rfl
  | cons id ids ih => rw [List.foldl_cons, ih, keys_pushCount]

/-- A tally lists the nodes of the walk that visits each node once. -/
theorem order_ofRoots (p : Pool) (keep : Nat → Bool) (roots : List Nat) :
    (ofRoots p keep roots).order = (p.walkAll (askOnceIf keep) (roots.filter keep) []).1 := by
  rw [order, ofRoots, keys_foldl_pushCount, List.map_map]
  exact List.map_id _

theorem visits_ofRoots (p : Pool) (keep : Nat → Bool) (roots : List Nat) :
    Visits p (askOnceIf keep) (roots.filter keep) [] (ofRoots p keep roots).order
      (p.walkAll (askOnceIf keep) (roots.filter keep) []).2 := by
  rw [order_ofRoots]
  exact visits_iff.2 rfl

theorem nodup_order (p : Pool) (keep : Nat → Bool) (roots : List Nat) :
    (ofRoots p keep roots).order.Nodup :=
  ((visits_ofRoots p keep roots).nodup (askOnceIf_gate keep)).1

/-! ### Nodes that occur more than once -/

theorem shared_sublist (o : Occurrences) : o.shared.Sublist o.order :=
  List.filter_sublist.map _

theorem nodup_shared (p : Pool) (keep : Nat → Bool) (roots : List Nat) :
    (ofRoots p keep roots).shared.Nodup :=
  (nodup_order p keep roots).sublist (shared_sublist _)

theorem shared_sound {id : Nat} (h : id ∈ (ofRoots p keep roots).shared) :
    keep id = true ∧ ∃ r ∈ roots, p.ReachesBy (keep ·) r id := by
  have listed : id ∈ (ofRoots p keep roots).order := (shared_sublist _).subset h
  obtain ⟨hk, r, hr, path⟩ := (visits_ofRoots p keep roots).sound (askOnceIf_gate keep) id listed
  exact ⟨hk, r, (List.mem_filter.1 hr).1, path⟩

end Occurrences

end ShaderDag
