import Mathlib.Algebra.BigOperators.Group.Finset.Basic
import Mathlib.Data.ENat.Lattice
import ShaderDag.Proofs.FullWalk
import ShaderDag.Proofs.Occurrence

/-!
# Path counts

The tally of several roots finds how often each node is written out without walking any node twice: it
starts from how often a node is a root, and takes up the nodes parents first, so that each has received
what its parents pass on before it passes on its own count.

* `Occurrences.saturated` — a table of numbers, cut off at the largest count;
* `Occurrences.foldl_pushCount` — counts that flow from parents to children become the path counts;
* `Occurrences.ofRoots_eq_ofSequence` — the tally of several roots is that of the full walk;
* `Occurrences.shared_child`, `Occurrences.childrenFirst_shared` — what stands below a shared node is
  shared, and listed before it;
* `Occurrences.nodup_shared_append`, `Occurrences.mem_shared_append` — the shared nodes, and the rest
  written out around them, make up all nodes, each once.
-/

namespace ShaderDag

namespace Occurrences

variable {p : Pool} {keep : Nat → Bool} {keys ids roots : List Nat} {id : Nat} {total : Nat → Nat}

/-! ### Saturated tables -/

/-- The table in which every key has its number, or the largest count if the number is larger. -/
def saturated (keys : List Nat) (total : Nat → Nat) : List (Nat × Nat) :=
  keys.map fun key => (key, min (total key) maxCount)

/-- Saturated addition of saturated numbers is addition, saturated. -/
theorem addCount_min (a b : Nat) :
    addCount (min a maxCount) (min b maxCount) = min (a + b) maxCount := by
  unfold addCount
  omega

theorem saturated_congr {total' : Nat → Nat} (same : ∀ key ∈ keys, total key = total' key) :
    saturated keys total = saturated keys total' :=
  List.map_congr_left fun key hk => by rw [same key hk]

theorem lookup_saturated (mem : id ∈ keys) :
    (saturated keys total).lookup id = some (min (total id) maxCount) := by
  induction keys with
  | nil => simp at mem
  | cons key keys ih =>
    rw [saturated, List.map_cons, List.lookup_cons]
    by_cases same : id = key
    · simp [same]
    · rw [beq_false_of_ne same]
      exact ih ((List.mem_cons.1 mem).resolve_left same)

theorem addTo_saturated (distinct : keys.Nodup) (id more : Nat) :
    addTo id (min more maxCount) (saturated keys total) =
      saturated keys fun key => if key = id then total key + more else total key := by
  induction keys with
  | nil => rfl
  | cons key keys ih =>
    rw [List.nodup_cons] at distinct
    rw [saturated, List.map_cons, addTo]
    split
    · next same =>
      have others : saturated keys total =
          saturated keys fun key => if key = id then total key + more else total key := by
        refine saturated_congr fun other ho => ?_
        have : other ≠ id := fun h => distinct.1 (same ▸ h ▸ ho)
        rw [if_neg this]
      rw [addCount_min]
      exact List.cons_eq_cons.2 ⟨by simp [same], others⟩
    · next other =>
      exact List.cons_eq_cons.2 ⟨by simp [other], ih distinct.2⟩

/-- Adding one number for each entry of a list adds it as often as the entry occurs. -/
theorem foldl_addTo_saturated (distinct : keys.Nodup) (more : Nat) (cs : List Nat) :
    cs.foldl (fun entries c => addTo c (min more maxCount) entries) (saturated keys total) =
      saturated keys fun key => total key + more * cs.count key := by
  induction cs generalizing total with
  | nil => rfl
  | cons c cs ih =>
    rw [List.foldl_cons, addTo_saturated distinct, ih]
    refine saturated_congr fun key _ => ?_
    by_cases same : key = c
    · rw [if_pos same, same, List.count_cons_self, Nat.mul_add, Nat.mul_one]
      omega
    · rw [if_neg same, List.count_cons_of_ne (Ne.symm same)]

theorem pushCount_saturated (distinct : keys.Nodup) (mem : id ∈ keys) :
    pushCount p (saturated keys total) id =
      saturated keys fun key => total key + total id * (Walk.childList p id).count key := by
  rw [pushCount, lookup_saturated mem]
  exact foldl_addTo_saturated distinct _ _

/-! ### Counts that flow from parents to children -/

/-- What a list of nodes passes on to a node, if each passes on its own number. -/
def inflow (p : Pool) (total : Nat → Nat) (parents : List Nat) (id : Nat) : Nat :=
  (parents.map fun a => total a * (Walk.childList p a).count id).sum

theorem inflow_append (p : Pool) (total : Nat → Nat) (as bs : List Nat) (id : Nat) :
    inflow p total (as ++ bs) id = inflow p total as id + inflow p total bs id := by
  rw [inflow, List.map_append, List.sum_append]
  rfl

theorem inflow_eq_zero {parents : List Nat} (none : ∀ a ∈ parents, ¬p.Child a id) :
    inflow p total parents id = 0 := by
  refine List.sum_eq_zero fun x hx => ?_
  obtain ⟨a, ha, rfl⟩ := List.mem_map.1 hx
  rw [List.count_eq_zero.2 (none a ha), Nat.mul_zero]

/-- **Counts flow from parents to children.**  Suppose that the number of every node is its own share
plus what its parents pass on.  When the nodes are taken up parents first, each of them has received all
of its number by then, and passes it on.  The induction is over the nodes that are still to be taken up;
those behind a node are no parents of it, so they have nothing to add to it. -/
theorem foldl_pushCount (distinct : keys.Nodup) (share : Nat → Nat) (done left : List Nat)
    (present : ∀ a ∈ left, a ∈ keys)
    (parentsFirst : left.Pairwise fun a b => ¬p.Child b a)
    (balance : ∀ id ∈ left, total id = share id + inflow p total (done ++ left) id) :
    left.foldl (pushCount p) (saturated keys fun id => share id + inflow p total done id) =
      saturated keys fun id => share id + inflow p total (done ++ left) id := by
  induction left generalizing done with
  | nil => rw [List.append_nil]; rfl
  | cons a left ih =>
    rw [List.pairwise_cons] at parentsFirst
    have own : ¬p.Child a a := fun loop => Nat.lt_irrefl a loop.lt
    have received : share a + inflow p total done a = total a := by
      have rest : inflow p total (a :: left) a = 0 := by
        refine inflow_eq_zero fun b hb => ?_
        rcases List.mem_cons.1 hb with rfl | hb
        · exact own
        · exact parentsFirst.1 b hb
      rw [balance a List.mem_cons_self, inflow_append, rest, Nat.add_zero]
    have passed : (saturated keys fun id => share id + inflow p total done id +
          (share a + inflow p total done a) * (Walk.childList p a).count id) =
        saturated keys fun id => share id + inflow p total (done ++ [a]) id := by
      refine saturated_congr fun id _ => ?_
      rw [received, inflow_append, Nat.add_assoc]
      simp [inflow]
    rw [List.foldl_cons, pushCount_saturated distinct (present a List.mem_cons_self), passed,
      ih (done ++ [a]) (fun b hb => present b (List.mem_cons_of_mem _ hb)) parentsFirst.2]
    · rw [List.append_assoc, List.singleton_append]
    · intro b hb
      rw [List.append_assoc, List.singleton_append]
      exact balance b (List.mem_cons_of_mem _ hb)

theorem inflow_reverse (p : Pool) (total : Nat → Nat) (parents : List Nat) (id : Nat) :
    inflow p total parents.reverse id = inflow p total parents id := by
  rw [inflow, List.map_reverse, List.sum_reverse]
  rfl

/-- The children of a sequence of nodes, counted by distinct parents. -/
theorem count_flatMap_childList (p : Pool) (xs : List Nat) (id : Nat) :
    (xs.flatMap (Walk.childList p)).count id = inflow p (xs.count ·) xs.eraseDups id := by
  have members : xs.eraseDups.toFinset = xs.toFinset := by
    ext c
    simp
  rw [List.count_flatMap, Finset.sum_list_map_count, ← members,
    List.sum_toFinset _ (nodup_eraseDups xs)]
  rfl

/-! ### The two tallies -/

theorem keys_saturated (keys : List Nat) (total : Nat → Nat) :
    (saturated keys total).map (·.1) = keys := by
  rw [saturated, List.map_map]
  exact List.map_id _

/-- Tallying one more node: the count of an old one grows, and a new one is listed last. -/
theorem record_saturated (xs : List Nat) (x : Nat) :
    record ⟨saturated xs.eraseDups (xs.count ·)⟩ x =
      ⟨saturated (xs ++ [x]).eraseDups ((xs ++ [x]).count ·)⟩ := by
  have one : (1 : Nat) = min 1 maxCount := by decide
  have listed : xs.eraseDups.contains x = true ↔ x ∈ xs := by
    rw [List.contains_iff_mem, List.mem_eraseDups]
  have count : ∀ key, (xs ++ [x]).count key = if key = x then xs.count key + 1 else xs.count key := by
    intro key
    rw [List.count_append, List.count_singleton, beq_eq_decide]
    grind
  rw [record, order, keys_saturated, List.eraseDups_append]
  refine (apply_ite Occurrences.mk _ _ _).symm.trans (congrArg Occurrences.mk ?_)
  by_cases old : x ∈ xs
  · rw [if_pos (listed.2 old), removeAll_eq_nil (by simpa using old), List.eraseDups_nil,
      List.append_nil, one, addTo_saturated (nodup_eraseDups xs)]
    exact saturated_congr fun key _ => (count key).symm
  · have absent : xs.count x = 0 := List.count_eq_zero.2 old
    have before : saturated xs.eraseDups (xs.count ·) = saturated xs.eraseDups ((xs ++ [x]).count ·) := by
      refine saturated_congr fun key mem => ?_
      have other : key ≠ x := fun same => old (same ▸ List.mem_eraseDups.1 mem)
      rw [count, if_neg other]
    have alone : saturated [x].eraseDups ((xs ++ [x]).count ·) = [(x, 1)] := by
      rw [List.eraseDups_cons]
      simp [saturated, count, absent, ← one]
    rw [if_neg fun h => old (listed.1 h), removeAll_eq_self (by simpa using old), before, ← alone]
    exact List.map_append.symm

/-- The tally of a sequence lists first occurrences, each with how often it occurs.  The induction is
over the sequence from its end, for the last node is tallied last. -/
theorem ofSequence_eq (xs : List Nat) : ofSequence xs = ⟨saturated xs.eraseDups (xs.count ·)⟩ := by
  induction xs using List.reverseRecOn with
  | nil => rfl
  | append_singleton xs x ih =>
    rw [← record_saturated, ← ih, ofSequence, List.foldl_append]
    rfl

theorem fullWalk_filter (p : Pool) (keep : Nat → Bool) (roots : List Nat) :
    p.fullWalk keep (roots.filter keep) = p.fullWalk keep roots := by
  induction roots with
  | nil => rfl
  | cons r rs ih =>
    cases hr : keep r with
    | true => rw [List.filter_cons_of_pos hr, p.fullWalk_cons, ih, ← p.fullWalk_cons]
    | false =>
      rw [List.filter_cons_of_neg (by simp [hr]), ih, p.fullWalk_cons, Pool.fullWalk_dropped hr,
        List.nil_append]

/-- The tally of several roots lists first occurrences. -/
theorem order_ofRoots_eq (p : Pool) (keep : Nat → Bool) (roots : List Nat) :
    (ofRoots p keep roots).order = (p.fullWalk keep roots).eraseDups := by
  have closed : p.ClosedBelow keep [] ((roots.filter keep).max?.getD 0 + 1) := by
    simp [Pool.ClosedBelow]
  have once := (visits_ofRoots p keep roots).eq_eraseDups closed fun id hid =>
    Nat.lt_succ_of_le (List.le_max?_getD_of_mem hid)
  rw [once, List.removeAll_nil, fullWalk_filter]

/-- **Path counts.**  The tally of several roots has each node as often as it is written out. -/
theorem ofRoots_eq (p : Pool) (keep : Nat → Bool) (roots : List Nat) :
    ofRoots p keep roots =
      ⟨saturated (p.fullWalk keep roots).eraseDups ((p.fullWalk keep roots).count ·)⟩ := by
  have visits := visits_ofRoots p keep roots
  have gate := askOnceIf_gate keep
  have distinct := nodup_order p keep roots
  have full := p.visits_fullWalk keep (roots.filter keep)
  rw [fullWalk_filter] at full
  have balance : ∀ id ∈ (ofRoots p keep roots).order, (p.fullWalk keep roots).count id =
      (roots.filter keep).count id +
        inflow p ((p.fullWalk keep roots).count ·) (ofRoots p keep roots).order.reverse id := by
    intro id mem
    have kept := (visits.sound gate id mem).1
    rw [full.count_eq_add kept, count_flatMap_childList, inflow_reverse, order_ofRoots_eq]
  have parentsFirst : (ofRoots p keep roots).order.reverse.Pairwise fun a b => ¬p.Child b a := by
    rw [List.pairwise_reverse]
    exact (visits.children_first gate).pairwise distinct (by simp) fun c hc =>
      (visits.sound gate c hc).1
  have run := foldl_pushCount distinct (fun id => (roots.filter keep).count id) []
    (ofRoots p keep roots).order.reverse (fun a ha => List.mem_reverse.1 ha) parentsFirst
    fun id mem => balance id (List.mem_reverse.1 mem)
  have start : ofRoots p keep roots =
      ⟨(ofRoots p keep roots).order.reverse.foldl (pushCount p)
        (saturated (ofRoots p keep roots).order fun id => (roots.filter keep).count id)⟩ := by
    rw [order_ofRoots]
    rfl
  rw [start]
  refine congrArg Occurrences.mk (run.trans ?_)
  rw [← order_ofRoots_eq]
  exact saturated_congr fun id mem => (balance id mem).symm

theorem count_ofRoots (p : Pool) (keep : Nat → Bool) (roots : List Nat) (id : Nat) :
    (ofRoots p keep roots).count id = min ((p.fullWalk keep roots).count id) maxCount := by
  rw [ofRoots_eq, count]
  by_cases mem : id ∈ p.fullWalk keep roots
  · rw [lookup_saturated (List.mem_eraseDups.2 mem)]
    rfl
  · have absent : (saturated (p.fullWalk keep roots).eraseDups
        ((p.fullWalk keep roots).count ·)).lookup id = none := by
      refine List.lookup_eq_none_iff.2 fun entry hentry => ?_
      obtain ⟨key, hkey, rfl⟩ := List.mem_map.1 hentry
      have other : id ≠ key := by
        rintro rfl
        exact mem (List.mem_eraseDups.1 hkey)
      exact bne_iff_ne.2 other
    rw [absent, List.count_eq_zero.2 mem]
    rfl

/-- The shared nodes are those that are written out twice, in the order of their first occurrence. -/
theorem shared_ofRoots (p : Pool) (keep : Nat → Bool) (roots : List Nat) :
    (ofRoots p keep roots).shared =
      (p.fullWalk keep roots).eraseDups.filter fun id => 2 ≤ (p.fullWalk keep roots).count id := by
  rw [ofRoots_eq, shared, saturated, List.filter_map, List.map_map]
  refine (List.map_id _).trans (List.filter_congr fun id _ => ?_)
  have large : 2 ≤ maxCount := by decide
  simp only [Function.comp_apply, decide_eq_decide]
  omega

/-- **The tally of several roots agrees with plain enumeration.**  It is the tally of the walks from the
roots, one after the other; it lists the nodes in the order of their first occurrence there; the count of
a node is the number of paths of kept nodes to it, up to the largest count; and the shared nodes are
those to which there are at least two such paths. -/
theorem ofRoots_eq_ofSequence (p : Pool) (keep : Nat → Bool) (roots : List Nat) :
    let walks := roots.flatMap fun r => (p.walk (askIf keep) r ()).1
    ofRoots p keep roots = ofSequence walks ∧
      (ofRoots p keep roots).order = walks.eraseDups ∧
      (∀ id, ((ofRoots p keep roots).count id : ℕ∞) =
        min (p.pathsTo keep roots id).encard ((2 ^ 64 - 1 : Nat) : ℕ∞)) ∧
      (ofRoots p keep roots).shared =
        walks.eraseDups.filter fun id => 2 ≤ (p.pathsTo keep roots id).encard := by
  intro walks
  have paths := (p.visits_fullWalk keep roots).encard_pathsTo
  refine ⟨?_, order_ofRoots_eq p keep roots, fun id => ?_, ?_⟩
  · rw [ofRoots_eq, ofSequence_eq]
    rfl
  · rw [count_ofRoots, paths]
    exact Nat.mono_cast.map_min
  · rw [shared_ofRoots]
    refine List.filter_congr fun id _ => ?_
    rw [paths, decide_eq_decide]
    norm_cast

/-! ### Shared nodes and the rest -/

theorem mem_shared : id ∈ (ofRoots p keep roots).shared ↔ 2 ≤ (p.fullWalk keep roots).count id := by
  rw [shared_ofRoots, List.mem_filter, List.mem_eraseDups, decide_eq_true_iff]
  refine and_iff_right_of_imp fun twice => List.count_pos_iff.1 ?_
  omega

/-- What stands below a shared node is shared, for it is written out with the node every time. -/
theorem shared_child {a b : Nat} (shared : a ∈ (ofRoots p keep roots).shared) (step : p.Child a b)
    (kept : keep b = true) : b ∈ (ofRoots p keep roots).shared := by
  rw [mem_shared] at shared ⊢
  have below := (p.visits_fullWalk keep roots).count_eq_add kept
  have each := step.count_le_count_flatMap (p.fullWalk keep roots)
  omega

/-- Shared nodes are listed children first. -/
theorem childrenFirst_shared (p : Pool) (keep : Nat → Bool) (roots : List Nat) :
    ChildrenFirst p keep [] (ofRoots p keep roots).shared := by
  have order := (visits_ofRoots p keep roots).children_first (askOnceIf_gate keep)
  have filtered := order.filter (fun id => 2 ≤ (p.fullWalk keep roots).count id) ?_
  · rw [order_ofRoots_eq, ← shared_ofRoots] at filtered
    exact filtered
  · intro a c twice step kept
    rw [decide_eq_true_iff, ← mem_shared] at twice ⊢
    exact shared_child twice step kept

/-- The nodes that are kept and not shared. -/
def keepRest (p : Pool) (keep : Nat → Bool) (roots : List Nat) (id : Nat) : Bool :=
  keep id && !(ofRoots p keep roots).shared.contains id

theorem keepRest_iff : keepRest p keep roots id = true ↔
    keep id = true ∧ id ∉ (ofRoots p keep roots).shared := by
  rw [keepRest, Bool.and_eq_true, Bool.not_eq_true', ← List.contains_iff_mem, Bool.not_eq_true]

/-- What is not shared is written out at most once, also where shared nodes are left out. -/
theorem nodup_rest (p : Pool) (keep : Nat → Bool) (roots : List Nat) :
    (p.fullWalk (keepRest p keep roots) roots).Nodup := by
  refine List.nodup_iff_count_le_one.2 fun id => ?_
  by_cases mem : id ∈ p.fullWalk (keepRest p keep roots) roots
  · have rare := (keepRest_iff.1 (Pool.mem_fullWalk.1 mem).1).2
    rw [mem_shared] at rare
    have kept : ∀ c, keepRest p keep roots c = true → keep c = true := fun c hc => (keepRest_iff.1 hc).1
    have fewer := p.count_fullWalk_le kept roots id
    omega
  · rw [List.count_eq_zero.2 mem]
    omega

/-- **Each node once.**  The shared nodes, and the roots written out with shared nodes left out, have
every node once. -/
theorem nodup_shared_append (p : Pool) (keep : Nat → Bool) (roots : List Nat) :
    ((ofRoots p keep roots).shared ++ p.fullWalk (keepRest p keep roots) roots).Nodup := by
  refine List.nodup_append.2 ⟨nodup_shared p keep roots, nodup_rest p keep roots, ?_⟩
  rintro a ha b hb rfl
  exact (keepRest_iff.1 (Pool.mem_fullWalk.1 hb).1).2 ha

/-- No node is lost: on the way to a node that is not shared there is no shared one. -/
theorem mem_shared_append :
    id ∈ (ofRoots p keep roots).shared ++ p.fullWalk (keepRest p keep roots) roots ↔
      id ∈ p.fullWalk keep roots := by
  rw [List.mem_append, Pool.mem_fullWalk, Pool.mem_fullWalk]
  constructor
  · rintro (shared | ⟨rest, r, hr, path⟩)
    · exact shared_sound shared
    · refine ⟨(keepRest_iff.1 rest).1, r, hr, ?_⟩
      exact Relation.ReflTransGen.mono (fun a b step => ⟨(keepRest_iff.1 step.1).1, step.2⟩) _ _ path
  · rintro ⟨kept, r, hr, path⟩
    by_cases shared : id ∈ (ofRoots p keep roots).shared
    · exact .inl shared
    · refine .inr ⟨keepRest_iff.2 ⟨kept, shared⟩, r, hr, ?_⟩
      clear hr
      induction path with
      | refl => exact .refl
      | @tail a b _ step ih =>
        have before : a ∉ (ofRoots p keep roots).shared := fun h => shared (shared_child h step.2 kept)
        exact (ih step.1 before).tail ⟨keepRest_iff.2 ⟨step.1, before⟩, step.2⟩

end Occurrences

end ShaderDag
