import ShaderDag.Proofs.Inputs
import ShaderDag.Proofs.Occurrence

/-!
# Nodes of two pools with the same tree

Two pools may hold an expression under different numbers, among other nodes, added in another order.
Nodes with the same tree are twins.  In well-formed pools every node has at most one twin, so whatever
is computed by comparing numbers comes out alike.

* `Pool.Twin` — two nodes of two pools have the same tree;
* `Pool.Twin.node` — twins have the same operation on twins;
* `Visits.twin` — walks from twins visit twins, in the same order;
* `Occurrences.twin_shared` — twins occur more than once together;
* `Pool.Twin.inStage_iff` — a stage reaches the twins of what the other reaches;
* `Pool.twin_callerNames`, `Pool.twin_varyingNames` — twins have the same names as inputs.
-/

namespace ShaderDag

variable {σ σ' : Type} {p q : Pool} {a b c d : Nat}

namespace Pool

/-- The two nodes have the same tree. -/
def Twin (p q : Pool) (a b : Nat) : Prop := ∃ t, p.tree? a = some t ∧ q.tree? b = some t

namespace Twin

theorem symm (h : Twin p q a b) : Twin q p b a := by
  obtain ⟨t, ha, hb⟩ := h
  exact ⟨t, hb, ha⟩

theorem eq_right (wq : q.WellFormed) (h : Twin p q a b) (h' : Twin p q a d) : b = d := by
  obtain ⟨t, ha, hb⟩ := h
  obtain ⟨t', ha', hd⟩ := h'
  rw [ha] at ha'
  cases ha'
  exact wq.tree_injective hb hd

/-- Twins of equal nodes are equal, and twins of different nodes are different. -/
theorem eq_iff (wp : p.WellFormed) (wq : q.WellFormed) (h : Twin p q a b) (h' : Twin p q c d) :
    a = c ↔ b = d := by
  constructor
  · rintro rfl
    exact h.eq_right wq h'
  · rintro rfl
    exact h.symm.eq_right wp h'.symm

theorem mem_iff {xs ys : List Nat} (wp : p.WellFormed) (wq : q.WellFormed) (h : Twin p q a b)
    (all : List.Forall₂ (Twin p q) xs ys) : a ∈ xs ↔ b ∈ ys := by
  induction all with
  | nil => simp
  | cons first _ ih => rw [List.mem_cons, List.mem_cons, ih, h.eq_iff wp wq first]

/-- Twins are the two sides of one operation of one kind on twins. -/
theorem node (h : Twin p q a b) : ∃ (e f : Entry) (m : Node (Nat × Nat)),
    p.entry? a = some e ∧ q.entry? b = some f ∧ e.kind = f.kind ∧ e.node = m.map (·.1) ∧
      f.node = m.map (·.2) ∧ (∀ x ∈ m.children, Twin p q x.1 x.2) ∧
      (∀ x ∈ e.node.children, x < a) ∧ ∀ x ∈ f.node.children, x < b := by
  obtain ⟨⟨kind, operation⟩, ha, hb⟩ := h
  obtain ⟨e, he, below, hae, rfl⟩ := tree?_eq_some_iff.1 ha
  obtain ⟨f, hf, below', hbf, kinds⟩ := tree?_eq_some_iff.1 hb
  obtain ⟨m, left, right, all⟩ := Node.exists_zip (hae.trans hbf.symm)
  refine ⟨e, f, m, he, hf, kinds.symm, left, right, ?_, below, below'⟩
  intro x hx
  obtain ⟨t, -, ht⟩ := Node.exists_partner hae (left ▸ Node.mem_children_map.2 ⟨x, hx, rfl⟩)
  exact ⟨t, ht.symm, (all x hx).symm.trans ht.symm⟩

theorem kind_eq (h : Twin p q a b) : p.kind a = q.kind b := by
  obtain ⟨e, f, -, he, hf, kinds, -⟩ := h.node
  rw [Pool.kind_eq he, Pool.kind_eq hf, kinds]

/-- The operations of twins as read from their pools. -/
theorem node? (h : Twin p q a b) : ∃ (n : Node (Fin a)) (k : Node (Fin b)) (m : Node (Nat × Nat)),
    p.node? a = some n ∧ q.node? b = some k ∧ n.map Fin.val = m.map (·.1) ∧
      k.map Fin.val = m.map (·.2) ∧ ∀ x ∈ m.children, Twin p q x.1 x.2 := by
  obtain ⟨e, f, m, he, hf, -, left, right, all, below, below'⟩ := h.node
  obtain ⟨n, hn, same⟩ := exists_node he below
  obtain ⟨k, hk, same'⟩ := exists_node hf below'
  exact ⟨n, k, m, hn, hk, same.trans left, same'.trans right, all⟩

theorem children (h : Twin p q a b) :
    List.Forall₂ (Twin p q) (Walk.childList p a) (Walk.childList q b) := by
  obtain ⟨n, k, m, hn, hk, left, right, all⟩ := h.node?
  rw [childList_of_node hn, childList_of_node hk, left, right, Node.children_map, Node.children_map,
    List.forall₂_map_left_iff, List.forall₂_map_right_iff]
  exact List.forall₂_same.2 all

theorem isInput_eq (h : Twin p q a b) : p.isInput a = q.isInput b := by
  obtain ⟨n, k, m, hn, hk, left, right, -⟩ := h.node?
  rw [isInput, isInput, hn, hk, Option.any_some, Option.any_some, Node.isInput_congr left,
    Node.isInput_congr right]

theorem attributeName? {name : String} (h : Twin p q a b) (ha : p.attributeName? a = some name) :
    q.attributeName? b = some name := by
  obtain ⟨n, k, m, hn, hk, left, right, -⟩ := h.node?
  rw [attributeName?_eq_some_iff, hn, Option.some.injEq] at ha
  rw [attributeName?_eq_some_iff, hk, Option.some.injEq]
  subst ha
  match k, m, left, right with
  | .attribute name', .attribute text, left, right =>
    simp only [Node.map, Node.attribute.injEq] at left right
    rw [left, right]

theorem uniformName? {name : String} (h : Twin p q a b) (ha : p.uniformName? a = some name) :
    q.uniformName? b = some name := by
  obtain ⟨n, k, m, hn, hk, left, right, -⟩ := h.node?
  rw [uniformName?_eq_some_iff, hn, Option.some.injEq] at ha
  rw [uniformName?_eq_some_iff, hk, Option.some.injEq]
  subst ha
  match k, m, left, right with
  | .uniform name', .uniform text, left, right =>
    simp only [Node.map, Node.uniform.injEq] at left right
    rw [left, right]

theorem varyingInner? {inner : Nat} (h : Twin p q a b) (ha : p.varyingInner? a = some inner) :
    ∃ inner', q.varyingInner? b = some inner' ∧ Twin p q inner inner' := by
  obtain ⟨n, k, m, hn, hk, left, right, all⟩ := h.node?
  obtain ⟨i, rfl, hi⟩ := varyingInner?_eq_some_iff.1 ha
  rw [hn, Option.some.injEq] at hi
  subst hi
  match k, m, left, right, hk, all with
  | .varying j, .varying x, left, right, hk, all =>
    simp only [Node.map, Node.varying.injEq] at left right
    refine ⟨j, varyingInner?_eq_some_iff.2 ⟨j, rfl, hk⟩, ?_⟩
    rw [left, right]
    exact all x (by simp [Node.children])

end Twin

end Pool

/-! ### Walks from twins -/

/-- **Walks from twins visit twins.**  If the answers to questions about twins agree, then so do the runs
rule by rule. -/
theorem Visits.twin {ask : Ask σ} {ask' : Ask σ'} {alike : σ → σ' → Prop}
    (respects : ∀ a b s s', Pool.Twin p q a b → alike s s' →
      (ask a s).1 = (ask' b s').1 ∧ alike (ask a s).2 (ask' b s').2)
    {ids ids' ys ys' : List Nat} {s t : σ} {s' t' : σ'} (h : Visits p ask ids s ys t)
    (h' : Visits q ask' ids' s' ys' t') (roots : List.Forall₂ (Pool.Twin p q) ids ids')
    (start : alike s s') : List.Forall₂ (Pool.Twin p q) ys ys' ∧ alike t t' := by
  induction h generalizing ids' ys' s' t' with
  | done s =>
    cases roots
    cases h'
    exact ⟨.nil, start⟩
  | @skip id ids ys s s₁ s₂ closed _ ih =>
    cases roots with
    | @cons _ id' _ ids' first rest =>
      have step := respects id id' s s' first start
      rw [closed] at step
      cases h' with
      | skip closed' rest' =>
        rw [closed'] at step
        exact ih rest' rest step.2
      | enter opened' _ _ =>
        rw [opened'] at step
        exact absurd step.1 (by simp)
  | @enter id ids below ys s s₁ s₂ s₃ opened _ _ ihInner ihRest =>
    cases roots with
    | @cons _ id' _ ids' first rest =>
      have step := respects id id' s s' first start
      rw [opened] at step
      cases h' with
      | skip closed' _ =>
        rw [closed'] at step
        exact absurd step.1 (by simp)
      | enter opened' inner' rest' =>
        rw [opened'] at step
        obtain ⟨belowTwins, mid⟩ := ihInner inner' first.children step.2
        obtain ⟨restTwins, last⟩ := ihRest rest' rest mid
        exact ⟨List.rel_append belowTwins (.cons first restTwins), last⟩

section Walks

variable (wp : p.WellFormed) (wq : q.WellFormed)

include wp wq

theorem twin_askOnce (a b : Nat) (s s' : List Nat) (h : Pool.Twin p q a b)
    (alike : List.Forall₂ (Pool.Twin p q) s s') :
    (askOnce a s).1 = (askOnce b s').1 ∧
      List.Forall₂ (Pool.Twin p q) (askOnce a s).2 (askOnce b s').2 := by
  have same := h.mem_iff wp wq alike
  by_cases seen : a ∈ s
  · have seen' := same.1 seen
    simpa [askOnce, seen, seen'] using alike
  · have seen' : b ∉ s' := fun mem => seen (same.2 mem)
    simpa [askOnce, seen, seen'] using ⟨h, alike⟩

theorem Pool.twin_reachable {roots roots' : List Nat} (h : List.Forall₂ (Pool.Twin p q) roots roots') :
    List.Forall₂ (Pool.Twin p q) (p.reachable roots) (q.reachable roots') :=
  ((visits_reachable p roots).twin (twin_askOnce wp wq) (visits_reachable q roots') h .nil).1

end Walks

/-! ### Tables of twins -/

/-- Twins with the same value. -/
def TwinWith {β : Type} (p q : Pool) (x y : Nat × β) : Prop := Pool.Twin p q x.1 y.1 ∧ x.2 = y.2

section Tables

variable {β : Type} (wp : p.WellFormed) (wq : q.WellFormed)

include wp wq

theorem lookup_twin {l l' : List (Nat × β)} (h : Pool.Twin p q a b)
    (all : List.Forall₂ (TwinWith p q) l l') : l.lookup a = l'.lookup b := by
  induction all with
  | nil => rfl
  | @cons x y l l' first _ ih =>
    have same : (a == x.1) = (b == y.1) := by
      rw [Bool.eq_iff_iff, beq_iff_eq, beq_iff_eq]
      exact h.eq_iff wp wq first.1
    rw [List.lookup_cons, List.lookup_cons, same, first.2, ih]

namespace Occurrences

theorem twin_addTo {l l' : List (Nat × Nat)} (h : Pool.Twin p q a b) (more : Nat)
    (all : List.Forall₂ (TwinWith p q) l l') :
    List.Forall₂ (TwinWith p q) (addTo a more l) (addTo b more l') := by
  induction all with
  | nil => exact .nil
  | @cons x y l l' first rest ih =>
    obtain ⟨key, count⟩ := x
    obtain ⟨key', count'⟩ := y
    obtain ⟨twin, rfl⟩ : Pool.Twin p q key key' ∧ count = count' := first
    rw [addTo, addTo]
    by_cases same : key = a
    · rw [if_pos same, if_pos ((twin.eq_iff wp wq h).1 same)]
      exact .cons ⟨twin, rfl⟩ rest
    · rw [if_neg same, if_neg fun same' => same ((twin.eq_iff wp wq h).2 same')]
      exact .cons ⟨twin, rfl⟩ ih

theorem twin_pushCount {l l' : List (Nat × Nat)} (h : Pool.Twin p q a b)
    (all : List.Forall₂ (TwinWith p q) l l') :
    List.Forall₂ (TwinWith p q) (pushCount p l a) (pushCount q l' b) := by
  rw [pushCount, pushCount, lookup_twin wp wq h all]
  exact List.rel_foldl (P := List.Forall₂ (TwinWith p q)) (R := Pool.Twin p q)
    (fun _ _ entries _ _ child => twin_addTo wp wq child _ entries) all h.children

theorem count_twin {xs ys : List Nat} (h : Pool.Twin p q a b)
    (all : List.Forall₂ (Pool.Twin p q) xs ys) : xs.count a = ys.count b := by
  induction all with
  | nil => rfl
  | @cons x y xs ys first _ ih =>
    have same : (x == a) = (y == b) := by
      rw [Bool.eq_iff_iff, beq_iff_eq, beq_iff_eq]
      exact first.eq_iff wp wq h
    rw [List.count_cons, List.count_cons, ih, same]

/-- **Twins occur equally often.** -/
theorem twin_ofRoots {keep keep' : Nat → Bool} {roots roots' : List Nat}
    (same : ∀ a b, Pool.Twin p q a b → keep a = keep' b)
    (h : List.Forall₂ (Pool.Twin p q) roots roots') :
    List.Forall₂ (TwinWith p q) (ofRoots p keep roots).entries (ofRoots q keep' roots').entries := by
  have kept : List.Forall₂ (Pool.Twin p q) (roots.filter keep) (roots'.filter keep') :=
    List.rel_filter (fun a b twin => Bool.eq_iff_iff.1 (same a b twin)) h
  have ask : ∀ a b s s', Pool.Twin p q a b → List.Forall₂ (Pool.Twin p q) s s' →
      (askOnceIf keep a s).1 = (askOnceIf keep' b s').1 ∧
        List.Forall₂ (Pool.Twin p q) (askOnceIf keep a s).2 (askOnceIf keep' b s').2 := by
    intro a b s s' twin alike
    rw [askOnceIf, askOnceIf, same a b twin]
    split
    · exact twin_askOnce wp wq a b s s' twin alike
    · exact ⟨rfl, alike⟩
  have order := (visits_ofRoots p keep roots).twin ask (visits_ofRoots q keep' roots') kept .nil
  rw [order_ofRoots, order_ofRoots] at order
  refine List.rel_foldl (P := List.Forall₂ (TwinWith p q)) (R := Pool.Twin p q)
    (fun _ _ entries _ _ twin => twin_pushCount wp wq twin entries) ?_ (List.rel_reverse order.1)
  refine List.rel_map (R := Pool.Twin p q) (P := TwinWith p q) (fun a b twin => ⟨twin, ?_⟩) order.1
  rw [count_twin wp wq twin kept]

theorem twin_shared {keep keep' : Nat → Bool} {roots roots' : List Nat}
    (same : ∀ a b, Pool.Twin p q a b → keep a = keep' b)
    (h : List.Forall₂ (Pool.Twin p q) roots roots') :
    List.Forall₂ (Pool.Twin p q) (ofRoots p keep roots).shared (ofRoots q keep' roots').shared := by
  refine List.rel_map (R := TwinWith p q) (P := Pool.Twin p q) (fun x y twin => twin.1) ?_
  refine List.rel_filter (R := TwinWith p q) (fun x y twin => ?_) (twin_ofRoots wp wq same h)
  show decide (1 < x.2) = true ↔ decide (1 < y.2) = true
  rw [twin.2]

end Occurrences

end Tables

/-! ### Stages and inputs of twins -/

namespace Pool

variable {roots roots' : List Nat}

/-- What a stage reaches has a twin that the stage of twins reaches. -/
theorem InStage.exists_twin (h : p.InStage roots a) (all : List.Forall₂ (Twin p q) roots roots') :
    ∃ b, Twin p q a b ∧ q.InStage roots' b := by
  obtain ⟨r, hr, path⟩ := h
  obtain ⟨r', hr', twin⟩ := exists_of_forall₂_left all hr
  induction path with
  | refl => exact ⟨r', twin, inStage_root hr'⟩
  | tail _ step ih =>
    obtain ⟨b, twin, reached⟩ := ih
    obtain ⟨d, child, twin'⟩ := exists_of_forall₂_left twin.children step.2
    exact ⟨d, twin', reached.child (twin.isInput_eq ▸ step.1) child⟩

theorem Twin.flip_all (all : List.Forall₂ (Twin p q) roots roots') :
    List.Forall₂ (Twin q p) roots' roots :=
  List.Forall₂.flip (all.imp fun _ _ twin => twin.symm)

theorem Twin.inStage_iff (wp : p.WellFormed) (wq : q.WellFormed) (h : Twin p q a b)
    (all : List.Forall₂ (Twin p q) roots roots') : p.InStage roots a ↔ q.InStage roots' b := by
  constructor
  · intro reached
    obtain ⟨b', twin, reached'⟩ := reached.exists_twin all
    exact h.eq_right wq twin ▸ reached'
  · intro reached
    obtain ⟨a', twin, reached'⟩ := reached.exists_twin (Twin.flip_all all)
    exact h.symm.eq_right wp twin ▸ reached'

theorem Twin.contains_stageInputs (wp : p.WellFormed) (wq : q.WellFormed) (h : Twin p q a b)
    (all : List.Forall₂ (Twin p q) roots roots') :
    (p.stageInputs roots).contains a = (q.stageInputs roots').contains b := by
  rw [Bool.eq_iff_iff, List.contains_iff_mem, List.contains_iff_mem, mem_stageInputs, mem_stageInputs,
    h.inStage_iff wp wq all, h.isInput_eq]

section Inputs

variable (wp : p.WellFormed) (wq : q.WellFormed) (all : List.Forall₂ (Twin p q) roots roots')

include wp wq all

theorem twin_attributes :
    List.Forall₂ (TwinWith p q) (p.inputs roots).attributes (q.inputs roots').attributes := by
  refine List.rel_filterMap (R := Twin p q) (fun a b twin => ?_) (twin_reachable wp wq all)
  have same : p.attributeName? a = q.attributeName? b :=
    Option.ext fun name => ⟨twin.attributeName?, twin.symm.attributeName?⟩
  rw [same]
  cases q.attributeName? b with
  | none => exact .none
  | some name => exact .some ⟨twin, rfl⟩

theorem twin_uniforms :
    List.Forall₂ (TwinWith p q) (p.inputs roots).uniforms (q.inputs roots').uniforms := by
  refine List.rel_filterMap (R := Twin p q) (fun a b twin => ?_) (twin_reachable wp wq all)
  have same : p.uniformName? a = q.uniformName? b :=
    Option.ext fun name => ⟨twin.uniformName?, twin.symm.uniformName?⟩
  rw [same]
  cases q.uniformName? b with
  | none => exact .none
  | some name => exact .some ⟨twin, rfl⟩

theorem twin_varyings :
    List.Forall₂ (fun x y => Twin p q x.1 y.1 ∧ Twin p q x.2 y.2) (p.inputs roots).varyings
      (q.inputs roots').varyings := by
  refine List.rel_filterMap (R := Twin p q) (fun a b twin => ?_) (twin_reachable wp wq all)
  cases inner : p.varyingInner? a with
  | some i =>
    obtain ⟨j, hj, twin'⟩ := twin.varyingInner? inner
    rw [hj]
    exact .some ⟨twin, twin'⟩
  | none =>
    cases inner' : q.varyingInner? b with
    | none => exact .none
    | some j =>
      obtain ⟨i, hi, -⟩ := twin.symm.varyingInner? inner'
      rw [inner] at hi
      cases hi

theorem twin_callerNames :
    List.Forall₂ (TwinWith p q) (p.inputs roots).callerNames (q.inputs roots').callerNames :=
  List.rel_append (twin_attributes wp wq all) (twin_uniforms wp wq all)

theorem twin_varyingNames :
    List.Forall₂ (TwinWith p q) (p.inputs roots).varyingNames (q.inputs roots').varyingNames := by
  have taken := map_eq_of_forall₂ (f := Prod.snd) (g := Prod.snd) (twin_callerNames wp wq all)
    fun _ _ twin => twin.2
  rw [Inputs.varyingNames, Inputs.varyingNames, taken]
  refine List.rel_map (fun x y twin => ?_) (forall₂_zipIdx 0 (twin_varyings wp wq all))
  obtain ⟨⟨v, inner⟩, n⟩ := x
  obtain ⟨⟨w, inner'⟩, m⟩ := y
  obtain ⟨twins, rfl⟩ : (Twin p q v w ∧ Twin p q inner inner') ∧ n = m := twin
  exact ⟨twins.1, rfl⟩

end Inputs

end Pool

end ShaderDag
