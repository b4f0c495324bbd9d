import ShaderDag.Proofs.Adoption
import ShaderDag.Proofs.Record

/-!
# Equality across pools

Two handles of one pool are compared by their numbers, and two handles of different pools by kind and
digest.  Both comparisons mean that the handles stand for the same tree.  That equal trees compare as equal
holds without any assumption; that unequal trees never do needs the digest to tell apart the byte strings
that were hashed for the nodes below the handles.

* `Pool.records` — the byte strings hashed for a node and everything below it;
* `DigestsDiffer` — the digest tells some byte strings apart;
* `Pool.Twin.digest_eq` — equal trees have equal digests;
* `Pool.twin_of_digest_eq` — equal digests stand for equal trees;
* `Workspace.SameTree` — two handles stand for the same tree;
* `Session.Reachable.sameStructure_iff` — what the comparison of handles means.
-/

namespace ShaderDag

/-- The digest tells the byte strings apart. -/
def DigestsDiffer (records : List (List UInt8)) : Prop :=
  ∀ r ∈ records, ∀ r' ∈ records, digestOf r = digestOf r' → r = r'

instance (records : List (List UInt8)) : Decidable (DigestsDiffer records) :=
  inferInstanceAs (Decidable (∀ r ∈ records, ∀ r' ∈ records, digestOf r = digestOf r' → r = r'))

namespace Pool

variable {p q : Pool} {a b c : Nat} {e : Entry}

/-- The bytes that are hashed for an entry. -/
def record (p : Pool) (e : Entry) : List UInt8 := Node.record e.kind (e.node.map p.digest)

/-- The byte strings that are hashed for a node and everything below it. -/
def records (p : Pool) (id : Nat) : List (List UInt8) :=
  (p.reachable [id]).filterMap fun c => (p.entry? c).map p.record

theorem mem_records {r : List UInt8} :
    r ∈ p.records a ↔ ∃ c e, p.Reaches a c ∧ p.entry? c = some e ∧ p.record e = r := by
  simp only [records, List.mem_filterMap, mem_reachable, List.mem_singleton, exists_eq_left,
    Option.map_eq_some_iff]
  constructor
  · rintro ⟨c, path, e, he, hr⟩
    exact ⟨c, e, path, he, hr⟩
  · rintro ⟨c, e, path, he, hr⟩
    exact ⟨c, path, e, he, hr⟩

theorem record_mem_records (h : p.entry? a = some e) : p.record e ∈ p.records a :=
  mem_records.2 ⟨a, e, .refl, h, rfl⟩

theorem Child.records_subset (h : p.Child a c) : p.records c ⊆ p.records a := by
  intro r hr
  obtain ⟨d, e, path, he, same⟩ := mem_records.1 hr
  exact mem_records.2 ⟨d, e, path.head h, he, same⟩

theorem WellFormed.digest_eq (wf : p.WellFormed) (h : p.entry? a = some e) :
    p.digest a = digestOf (p.record e) := by
  rw [Pool.digest_eq h, wf.digested a e h]
  rfl

/-- **Equal trees have equal digests.**  The digest of a node is made from the digests of its children,
which are equal by induction. -/
theorem Twin.digest_eq (wp : p.WellFormed) (wq : q.WellFormed) (h : Twin p q a b) :
    p.digest a = q.digest b := by
  induction a using Nat.strongRecOn generalizing b with
  | ind a ih =>
    obtain ⟨e, f, m, he, hf, kinds, left, right, twins, below, -⟩ := h.node
    have children : e.node.map p.digest = f.node.map q.digest := by
      rw [left, right, Node.map_map, Node.map_map]
      refine Node.map_congr fun x hx => ih x.1 (below x.1 ?_) (twins x hx)
      exact left ▸ Node.mem_children_map.2 ⟨x, hx, rfl⟩
    rw [wp.digest_eq he, wq.digest_eq hf, record, record, kinds, children]

/-- **Equal digests stand for equal trees**, if the digest tells apart what was hashed on both sides.  The
two records are equal, so they hold one operation on children with equal digests. -/
theorem twin_of_digest_eq {known : List (List UInt8)} (wp : p.WellFormed) (wq : q.WellFormed)
    (differ : DigestsDiffer known) (ha : a < p.size) (hb : b < q.size) (left : p.records a ⊆ known)
    (right : q.records b ⊆ known) (same : p.digest a = q.digest b) : Twin p q a b := by
  induction a using Nat.strongRecOn generalizing b with
  | ind a ih =>
    obtain ⟨e, he⟩ := exists_entry ha
    obtain ⟨f, hf⟩ := exists_entry hb
    rw [wp.digest_eq he, wq.digest_eq hf] at same
    have bytes : p.record e = q.record f :=
      differ _ (left (record_mem_records he)) _ (right (record_mem_records hf)) same
    obtain ⟨kinds, nodes⟩ := Node.record_inj bytes
    have below := wp.descending a e he
    have below' := wq.descending b f hf
    have trees : e.node.map p.tree? = f.node.map q.tree? := by
      refine Node.map_eq_map_of (fun c hc d hd digests => ?_) nodes
      have edge : p.Child a c := by rwa [Child, wp.childList_eq he]
      have edge' : q.Child b d := by rwa [Child, wq.childList_eq hf]
      obtain ⟨t, hp, hq⟩ := ih c (below c hc) (Nat.lt_trans (below c hc) ha)
        (Nat.lt_trans (below' d hd) hb) (fun r hr => left (edge.records_subset hr))
        (fun r hr => right (edge'.records_subset hr)) digests
      rw [hp, hq]
    obtain ⟨⟨kind, operation⟩, ht⟩ := wp.exists_tree ha
    obtain ⟨e', he', -, operands, rfl⟩ := tree?_eq_some_iff.1 ht
    cases he.symm.trans he'
    exact ⟨_, ht, tree?_eq_some_iff.2 ⟨f, hf, below', trees.symm.trans operands, kinds.symm⟩⟩

end Pool

namespace Workspace

variable {w : Workspace} {a b c : Handle}

/-- The digest that a handle's pool stores for its node. -/
def digest (w : Workspace) (h : Handle) : Digest := (w.pool h.pool).digest h.id

/-- The byte strings that are hashed for the nodes of some handles and everything below them. -/
def records (w : Workspace) (hs : List Handle) : List (List UInt8) :=
  hs.flatMap fun h => (w.pool h.pool).records h.id

/-- The two handles stand for the same tree. -/
def SameTree (w : Workspace) (a b : Handle) : Prop :=
  (w.pool a.pool).Twin (w.pool b.pool) a.id b.id

theorem records_subset {hs : List Handle} {h : Handle} (mem : h ∈ hs) :
    (w.pool h.pool).records h.id ⊆ w.records hs :=
  fun _ hr => List.mem_flatMap.2 ⟨h, mem, hr⟩

theorem WellFormed.sameTree_refl (wf : w.WellFormed) (held : w.Holds a) : w.SameTree a a := by
  obtain ⟨t, ht⟩ := (wf a.pool).exists_tree held.lt
  exact ⟨t, ht, ht⟩

theorem SameTree.trans (h : w.SameTree a b) (h' : w.SameTree b c) : w.SameTree a c := by
  obtain ⟨t, ha, hb⟩ := h
  obtain ⟨t', hb', hc⟩ := h'
  rw [hb] at hb'
  cases hb'
  exact ⟨t, ha, hc⟩

/-- Within a pool, numbers are compared. -/
theorem WellFormed.id_eq_iff (wf : w.WellFormed) (held : w.Holds a) (home : a.pool = b.pool) :
    a.id = b.id ↔ w.SameTree a b := by
  constructor
  · intro same
    obtain ⟨t, ht⟩ := (wf a.pool).exists_tree held.lt
    exact ⟨t, ht, by rw [← home, ← same, ht]⟩
  · rintro ⟨t, ha, hb⟩
    rw [← home] at hb
    exact (wf a.pool).tree_injective ha hb

/-- Between pools, kinds and digests are compared. -/
theorem WellFormed.digest_eq_iff {hs : List Handle} (wf : w.WellFormed)
    (differ : DigestsDiffer (w.records hs)) (ha : a ∈ hs) (hb : b ∈ hs) (heldA : w.Holds a)
    (heldB : w.Holds b) : a.kind = b.kind ∧ w.digest a = w.digest b ↔ w.SameTree a b := by
  constructor
  · rintro ⟨-, same⟩
    exact Pool.twin_of_digest_eq (wf a.pool) (wf b.pool) differ heldA.lt heldB.lt (records_subset ha)
      (records_subset hb) same
  · intro twin
    refine ⟨?_, twin.digest_eq (wf a.pool) (wf b.pool)⟩
    rw [← heldA.kind_eq, ← heldB.kind_eq, twin.kind_eq]

/-- The comparison of some handles means equality of trees, whether they are compared by number or by kind
and digest. -/
structure ComparesTrees (w : Workspace) (hs : List Handle) : Prop where
  byNumber : ∀ a ∈ hs, ∀ b ∈ hs, a.pool = b.pool → (a.id = b.id ↔ w.SameTree a b)
  byDigest : ∀ a ∈ hs, ∀ b ∈ hs, a.kind = b.kind ∧ w.digest a = w.digest b ↔ w.SameTree a b
  sameStructure : ∀ a ∈ hs, ∀ b ∈ hs, w.sameStructure a b = true ↔ w.SameTree a b
  equivalence : Equivalence fun a b : { h // h ∈ hs } => w.sameStructure a b = true

theorem sameStructure_eq_true_iff : w.sameStructure a b = true ↔
    if a.pool = b.pool then a.id = b.id else a.kind = b.kind ∧ w.digest a = w.digest b := by
  unfold Workspace.sameStructure
  split <;> simp [digest]

theorem WellFormed.comparesTrees {hs : List Handle} (wf : w.WellFormed) (held : ∀ h ∈ hs, w.Holds h)
    (differ : DigestsDiffer (w.records hs)) : w.ComparesTrees hs := by
  have byNumber : ∀ a ∈ hs, ∀ b ∈ hs, a.pool = b.pool → (a.id = b.id ↔ w.SameTree a b) :=
    fun a ha b _ home => wf.id_eq_iff (held a ha) home
  have byDigest : ∀ a ∈ hs, ∀ b ∈ hs, a.kind = b.kind ∧ w.digest a = w.digest b ↔ w.SameTree a b :=
    fun a ha b hb => wf.digest_eq_iff differ ha hb (held a ha) (held b hb)
  have same : ∀ a ∈ hs, ∀ b ∈ hs, w.sameStructure a b = true ↔ w.SameTree a b := by
    intro a ha b hb
    rw [sameStructure_eq_true_iff]
    split
    · next home => exact byNumber a ha b hb home
    · exact byDigest a ha b hb
  refine ⟨byNumber, byDigest, same, ?_, ?_, ?_⟩
  · intro a
    exact (same a a.2 a a.2).2 (wf.sameTree_refl (held a a.2))
  · intro a b hab
    have trees : w.SameTree a b := (same a a.2 b b.2).1 hab
    exact (same b b.2 a a.2).2 trees.symm
  · intro a b c hab hbc
    have trees : w.SameTree a c := ((same a a.2 b b.2).1 hab).trans ((same b b.2 c c.2).1 hbc)
    exact (same a a.2 c c.2).2 trees

end Workspace

namespace Session

variable {s : Session}

/-- **Comparing handles is comparing trees.**  In a reachable session equal trees always have equal digests.
If the digest tells apart the byte strings hashed for the nodes below some handles, then both ways of
comparing those handles say whether they stand for the same tree. -/
theorem Reachable.sameStructure_iff (reached : s.Reachable) :
    (∀ a b, s.workspace.SameTree a b → s.workspace.digest a = s.workspace.digest b) ∧
      ∀ hs : List Handle, (∀ h ∈ hs, h ∈ s.handles) → DigestsDiffer (s.workspace.records hs) →
        s.workspace.ComparesTrees hs := by
  have v := reached.valid
  constructor
  · intro a b twin
    exact twin.digest_eq (v.wellFormed a.pool) (v.wellFormed b.pool)
  · intro hs given differ
    exact v.wellFormed.comparesTrees (fun h hh => v.handles h (given h hh)) differ

/-- The uniform of one pool is the uniform of the other, and not its double. -/
theorem twoPools_sameStructure_iff :
    twoPools.Reachable ∧ DigestsDiffer (twoPools.workspace.records twoPools.handles) ∧
      twoPools.workspace.SameTree ⟨0, 0, .float⟩ ⟨1, 0, .float⟩ ∧
      ¬twoPools.workspace.SameTree ⟨0, 0, .float⟩ ⟨1, 1, .float⟩ := by
  have differ : DigestsDiffer (twoPools.workspace.records twoPools.handles) := by decide +kernel
  have compares := reachable_twoPools.sameStructure_iff.2 twoPools.handles (fun _ h => h) differ
  refine ⟨reachable_twoPools, differ, ?_, ?_⟩
  · exact (compares.sameStructure _ (by decide) _ (by decide)).1 (by decide +kernel)
  · intro same
    have := (compares.sameStructure _ (by decide) _ (by decide)).2 same
    exact absurd this (by decide +kernel)

end Session

end ShaderDag
