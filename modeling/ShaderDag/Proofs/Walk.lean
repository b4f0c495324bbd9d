import Mathlib.Data.List.Nodup
import Mathlib.Logic.Relation
import ShaderDag.Graph.Walk

/-!
# What a walk visits

A walk asks about a node, walks its children if the node is let through, and yields it last.  The
relation `Visits` says this rule by rule, so that every property of a walk is one induction over the
three rules, whatever the memory of the question.

* `Pool.Child`, `Pool.Reaches`, `Pool.ReachesBy` — the edges of a pool, and paths along them;
* `Visits` — a run over pending nodes, equal to `Pool.walkAll` (`visits_iff`);
* `Gate` — questions that let a node through once, if a predicate holds;
* `Visits.mem_iff` — such a run yields exactly the nodes on paths of the predicate;
* `Visits.children_first` — every node is yielded behind its children.
-/

namespace ShaderDag

variable {σ : Type}

namespace Pool

/-! ### Paths -/

/-- One node is among the children of another. -/
def Child (p : Pool) (a b : Nat) : Prop := b ∈ Walk.childList p a

/-- A path from `a` to `b` on which every node but the last satisfies `through`. -/
def ReachesBy (p : Pool) (through : Nat → Prop) : Nat → Nat → Prop :=
  Relation.ReflTransGen fun a b => through a ∧ p.Child a b

/-- A path from `a` to `b`. -/
def Reaches (p : Pool) : Nat → Nat → Prop := Relation.ReflTransGen p.Child

@[grind →] theorem Child.lt {p : Pool} {a b : Nat} (h : p.Child a b) : b < a := by
  obtain ⟨c, -, rfl⟩ := List.mem_map.1 h
  exact c.isLt

@[grind →] theorem ReachesBy.reaches {p : Pool} {through : Nat → Prop} {a b : Nat}
    (h : p.ReachesBy through a b) : p.Reaches a b :=
  Relation.ReflTransGen.mono (fun _ _ step => step.2) _ _ h

theorem reachesBy_of_forall {p : Pool} {through : Nat → Prop} (all : ∀ a, through a) {a b : Nat}
    (h : p.Reaches a b) : p.ReachesBy through a b :=
  Relation.ReflTransGen.mono (fun a _ step => ⟨all a, step⟩) _ _ h

@[grind →] theorem Reaches.le {p : Pool} {a b : Nat} (h : p.Reaches a b) : b ≤ a := by
  induction h with
  | refl => exact Nat.le_refl a
  | tail _ step ih =>
    have := step.lt
    omega

/-! ### Equations of the walk -/

@[simp] theorem walkAll_cons (p : Pool) (ask : Ask σ) (id : Nat) (ids : List Nat) (s : σ) :
    p.walkAll ask (id :: ids) s =
      ((p.walk ask id s).1 ++ (p.walkAll ask ids (p.walk ask id s).2).1,
        (p.walkAll ask ids (p.walk ask id s).2).2) := by
  simp only [walkAll, List.mapM_cons]
  rfl

theorem walk_eq (p : Pool) (ask : Ask σ) (id : Nat) (s : σ) :
    p.walk ask id s =
      if (ask id s).1 then
        ((p.walkAll ask (Walk.childList p id) (ask id s).2).1 ++ [id],
          (p.walkAll ask (Walk.childList p id) (ask id s).2).2)
      else ([], (ask id s).2) := by
  rw [walk]
  simp only [bind, StateT.bind, walkAll, Walk.childList, List.mapM_map]
  rcases ask id s with ⟨opened, s₁⟩
  cases opened <;> rfl

end Pool

/-! ### Runs of a walk -/

/-- `Visits p ask ids s ys s'`: walking the nodes `ids` in order from memory `s` yields `ys` and leaves
memory `s'`. -/
inductive Visits (p : Pool) (ask : Ask σ) : List Nat → σ → List Nat → σ → Prop where
  | done (s : σ) : Visits p ask [] s [] s
  | skip {id : Nat} {ids ys : List Nat} {s s₁ s₂ : σ} (closed : ask id s = (false, s₁))
      (rest : Visits p ask ids s₁ ys s₂) : Visits p ask (id :: ids) s ys s₂
  | enter {id : Nat} {ids below ys : List Nat} {s s₁ s₂ s₃ : σ} (opened : ask id s = (true, s₁))
      (inner : Visits p ask (Walk.childList p id) s₁ below s₂) (rest : Visits p ask ids s₂ ys s₃) :
      Visits p ask (id :: ids) s (below ++ id :: ys) s₃

namespace Visits

variable {p : Pool} {ask : Ask σ} {ids ys : List Nat} {s s' : σ}

theorem walkAll_eq (h : Visits p ask ids s ys s') : p.walkAll ask ids s = (ys, s') := by
  induction h with
  | done s => rfl
  | skip closed _ ih => simp [Pool.walkAll_cons, Pool.walk_eq, closed, ih]
  | enter opened _ _ ihInner ihRest =>
    simp [Pool.walkAll_cons, Pool.walk_eq, opened, ihInner, ihRest]

/-- Every list of nodes has a run.  The outer induction is on a bound of the nodes: children are
smaller than their parent, so the run over them exists already. -/
theorem exists_of_bound (p : Pool) (ask : Ask σ) (bound : Nat) :
    ∀ (ids : List Nat) (s : σ), (∀ id ∈ ids, id < bound) →
      ∃ ys s', Visits p ask ids s ys s' := by
  induction bound with
  | zero =>
    intro ids s small
    cases ids with
    | nil => exact ⟨[], s, .done s⟩
    | cons id ids => exact absurd (small id List.mem_cons_self) (by omega)
  | succ bound ihBound =>
    intro ids
    induction ids with
    | nil =>
      intro s _
      exact ⟨[], s, .done s⟩
    | cons id ids ih =>
      intro s small
      have hid : id < bound + 1 := small id List.mem_cons_self
      have hids : ∀ i ∈ ids, i < bound + 1 := fun i hi => small i (List.mem_cons_of_mem id hi)
      rcases opened : ask id s with ⟨_ | _, s₁⟩
      · obtain ⟨ys, s₂, rest⟩ := ih s₁ hids
        exact ⟨ys, s₂, .skip opened rest⟩
      · have smaller : ∀ c ∈ Walk.childList p id, c < bound := by
          intro c hc
          have := Pool.Child.lt hc
          omega
        obtain ⟨below, s₂, inner⟩ := ihBound (Walk.childList p id) s₁ smaller
        obtain ⟨ys, s₃, rest⟩ := ih s₂ hids
        exact ⟨below ++ id :: ys, s₃, .enter opened inner rest⟩

end Visits

/-- The rules of `Visits` describe the walk exactly. -/
theorem visits_iff {p : Pool} {ask : Ask σ} {ids ys : List Nat} {s s' : σ} :
    Visits p ask ids s ys s' ↔ p.walkAll ask ids s = (ys, s') := by
  constructor
  · exact Visits.walkAll_eq
  · intro h
    have small : ∀ id ∈ ids, id < ids.max?.getD 0 + 1 := fun id hid =>
      Nat.lt_succ_of_le (List.le_max?_getD_of_mem hid)
    obtain ⟨zs, s₁, run⟩ := Visits.exists_of_bound p ask _ ids s small
    have same : (zs, s₁) = (ys, s') := run.walkAll_eq.symm.trans h
    cases same
    exact run

/-- What every question keeps true of the memory holds at the end of a run. -/
theorem Visits.invariant {p : Pool} {ask : Ask σ} {ids ys : List Nat} {s s' : σ} {inv : σ → Prop}
    (keeps : ∀ id s, inv s → inv (ask id s).2) (h : Visits p ask ids s ys s') (start : inv s) :
    inv s' := by
  induction h with
  | done s => exact start
  | @skip id ids ys s s₁ s₂ closed _ ih =>
    have next := keeps id s start
    rw [closed] at next
    exact ih next
  | @enter id ids below ys s s₁ s₂ s₃ opened _ _ ihInner ihRest =>
    have next := keeps id s start
    rw [opened] at next
    exact ihRest (ihInner next)

/-! ### Orders in which children come first -/

/-- Every node of a list has its children that `keep` allows before it, or among the nodes known
from the start. -/
def ChildrenFirst (p : Pool) (keep : Nat → Bool) : (known : List Nat) → List Nat → Prop
  | _, [] => True
  | known, id :: rest =>
    (∀ c, p.Child id c → keep c = true → c ∈ known) ∧ ChildrenFirst p keep (id :: known) rest

section ChildrenFirst

variable {p : Pool} {keep : Nat → Bool} {known known' xs : List Nat}

theorem ChildrenFirst.mono (h : ChildrenFirst p keep known xs)
    (sub : ∀ n ∈ xs, ∀ c, p.Child n c → c ∈ known → c ∈ known') :
    ChildrenFirst p keep known' xs := by
  induction xs generalizing known known' with
  | nil => trivial
  | cons id rest ih =>
    refine ⟨fun c hc hk => sub id List.mem_cons_self c hc (h.1 c hc hk), ih h.2 ?_⟩
    intro n hn c hc mem
    rcases List.mem_cons.1 mem with rfl | mem
    · exact List.mem_cons_self
    · exact List.mem_cons_of_mem _ (sub n (List.mem_cons_of_mem _ hn) c hc mem)

theorem childrenFirst_append {ys : List Nat} :
    ChildrenFirst p keep known (xs ++ ys) ↔
      ChildrenFirst p keep known xs ∧ ChildrenFirst p keep (xs ++ known) ys := by
  induction xs generalizing known with
  | nil => simp [ChildrenFirst]
  | cons id rest ih =>
    have swap : ChildrenFirst p keep (rest ++ id :: known) ys ↔
        ChildrenFirst p keep (id :: rest ++ known) ys := by
      constructor <;> exact fun h => h.mono fun _ _ c _ hc => by simp at hc ⊢; grind
    simp only [List.cons_append, ChildrenFirst, ih, swap, and_assoc]

theorem ChildrenFirst.child_mem (h : ChildrenFirst p keep known xs) {id c : Nat} (hid : id ∈ xs)
    (hc : p.Child id c) (hk : keep c = true) : c ∈ known ∨ c ∈ xs := by
  induction xs generalizing known with
  | nil => simp at hid
  | cons n rest ih =>
    rcases List.mem_cons.1 hid with rfl | hid
    · exact .inl (h.1 c hc hk)
    · have := ih h.2 hid
      simp only [List.mem_cons] at this ⊢
      grind

/-- Where children come first, they also do so among nodes of a kind that is passed on to children. -/
theorem ChildrenFirst.filter (h : ChildrenFirst p keep known xs) (chosen : Nat → Bool)
    (closed : ∀ a c, chosen a = true → p.Child a c → keep c = true → chosen c = true) :
    ChildrenFirst p keep (known.filter chosen) (xs.filter chosen) := by
  induction xs generalizing known with
  | nil => trivial
  | cons a rest ih =>
    have later := ih h.2
    cases ha : chosen a with
    | true =>
      rw [List.filter_cons_of_pos ha] at later ⊢
      refine ⟨fun c step kept => ?_, later⟩
      exact List.mem_filter.2 ⟨h.1 c step kept, closed a c ha step kept⟩
    | false =>
      have skipped : ¬chosen a = true := by simp [ha]
      rwa [List.filter_cons_of_neg skipped] at later ⊢

/-- Where children come first, no node is a child of an earlier one. -/
theorem ChildrenFirst.pairwise (h : ChildrenFirst p keep known xs) (distinct : xs.Nodup)
    (apart : ∀ c ∈ xs, c ∉ known) (kept : ∀ c ∈ xs, keep c = true) :
    xs.Pairwise fun a b => ¬p.Child a b := by
  induction xs generalizing known with
  | nil => exact .nil
  | cons a rest ih =>
    rw [List.nodup_cons] at distinct
    refine List.pairwise_cons.2 ⟨fun b hb step => ?_, ih h.2 distinct.2 ?_ ?_⟩
    · have mem := List.mem_cons_of_mem a hb
      exact apart b mem (h.1 b step (kept b mem))
    · intro c hc old
      rcases List.mem_cons.1 old with rfl | old
      · exact distinct.1 hc
      · exact apart c (List.mem_cons_of_mem a hc) old
    · exact fun c hc => kept c (List.mem_cons_of_mem a hc)

end ChildrenFirst

/-! ### Questions that open once -/

/-- A question that lets a node through if `keep` holds and it was not let through before; `passed`
reads off the memory which nodes were. -/
structure Gate (ask : Ask σ) (keep : Nat → Bool) (passed : σ → List Nat) : Prop where
  opens : ∀ id s, (ask id s).1 = true ↔ keep id = true ∧ id ∉ passed s
  records : ∀ id s c, c ∈ passed (ask id s).2 ↔ c ∈ passed s ∨ (c = id ∧ (ask id s).1 = true)

theorem askOnceIf_gate (keep : Nat → Bool) : Gate (askOnceIf keep) keep id where
  opens n s := by
    by_cases hk : keep n <;> by_cases hs : n ∈ s <;> simp [askOnceIf, askOnce, hk, hs]
  records n s c := by
    by_cases hk : keep n <;> by_cases hs : n ∈ s <;> simp [askOnceIf, askOnce, hk, hs, or_comm]

theorem askOnce_gate : Gate askOnce (fun _ => true) id where
  opens n s := by by_cases hs : n ∈ s <;> simp [askOnce, hs]
  records n s c := by by_cases hs : n ∈ s <;> simp [askOnce, hs, or_comm]

namespace Visits

variable {p : Pool} {ask : Ask σ} {keep : Nat → Bool} {passed : σ → List Nat}
variable {ids ys : List Nat} {s s' : σ}

/-- The nodes let through by the end are those from before and those yielded. -/
theorem mem_passed (gate : Gate ask keep passed) (h : Visits p ask ids s ys s') (c : Nat) :
    c ∈ passed s' ↔ c ∈ passed s ∨ c ∈ ys := by
  induction h with
  | done s => simp
  | @skip id ids ys s s₁ s₂ closed _ ih =>
    have here := gate.records id s c
    rw [closed] at here
    rw [ih, here]
    simp
  | @enter id ids below ys s s₁ s₂ s₃ opened _ _ ihInner ihRest =>
    have here := gate.records id s c
    rw [opened] at here
    rw [ihRest, ihInner, here]
    simp only [List.mem_append, List.mem_cons]
    grind

/-- No node is yielded twice, and none that was let through before. -/
theorem nodup (gate : Gate ask keep passed) (h : Visits p ask ids s ys s') :
    ys.Nodup ∧ ∀ c ∈ ys, c ∉ passed s := by
  induction h with
  | done s => simp
  | @skip id ids ys s s₁ s₂ closed _ ih =>
    refine ⟨ih.1, fun c hc old => ih.2 c hc ?_⟩
    have here := gate.records id s c
    rw [closed] at here
    exact here.2 (.inl old)
  | @enter id ids below ys s s₁ s₂ s₃ opened inner rest ihInner ihRest =>
    have fresh : id ∉ passed s := ((gate.opens id s).1 (by rw [opened])).2
    have here : ∀ c, c ∈ passed s₁ ↔ c ∈ passed s ∨ c = id := fun c => by
      have := gate.records id s c
      rw [opened] at this
      simpa using this
    have later : ∀ c, c ∈ passed s₂ ↔ (c ∈ passed s ∨ c = id) ∨ c ∈ below := fun c => by
      rw [inner.mem_passed gate c, here c]
    refine ⟨?_, ?_⟩
    · rw [List.nodup_append]
      refine ⟨ihInner.1, List.nodup_cons.2 ⟨fun hid => ?_, ihRest.1⟩, ?_⟩
      · exact ihRest.2 id hid ((later id).2 (.inl (.inr rfl)))
      · rintro c hc d hd rfl
        rcases List.mem_cons.1 hd with rfl | hd
        · exact ihInner.2 c hc ((here c).2 (.inr rfl))
        · exact ihRest.2 c hd ((later c).2 (.inr hc))
    · intro c hc old
      rcases List.mem_append.1 hc with hc | hc
      · exact ihInner.2 c hc ((here c).2 (.inl old))
      · rcases List.mem_cons.1 hc with rfl | hc
        · exact fresh old
        · exact ihRest.2 c hc ((later c).2 (.inl (.inl old)))

/-- Every yielded node lies on a path of `keep` from one of the pending nodes. -/
theorem sound (gate : Gate ask keep passed) (h : Visits p ask ids s ys s') :
    ∀ c ∈ ys, keep c = true ∧ ∃ r ∈ ids, p.ReachesBy (keep ·) r c := by
  induction h with
  | done s => simp
  | skip _ _ ih =>
    intro c hc
    obtain ⟨hk, r, hr, path⟩ := ih c hc
    exact ⟨hk, r, List.mem_cons_of_mem _ hr, path⟩
  | @enter id ids below ys s s₁ s₂ s₃ opened _ _ ihInner ihRest =>
    have hid : keep id = true := ((gate.opens id s).1 (by rw [opened])).1
    intro c hc
    rcases List.mem_append.1 hc with hc | hc
    · obtain ⟨hk, r, hr, path⟩ := ihInner c hc
      exact ⟨hk, id, List.mem_cons_self, Relation.ReflTransGen.head ⟨hid, hr⟩ path⟩
    · rcases List.mem_cons.1 hc with rfl | hc
      · exact ⟨hid, c, List.mem_cons_self, Relation.ReflTransGen.refl⟩
      · obtain ⟨hk, r, hr, path⟩ := ihRest c hc
        exact ⟨hk, r, List.mem_cons_of_mem _ hr, path⟩

/-- Every pending node that `keep` allows has been let through by the end. -/
theorem roots_passed (gate : Gate ask keep passed) (h : Visits p ask ids s ys s') :
    ∀ id ∈ ids, keep id = true → id ∈ passed s' := by
  induction h with
  | done s => simp
  | @skip id ids ys s s₁ s₂ closed rest ih =>
    intro r hr hk
    rcases List.mem_cons.1 hr with rfl | hr
    · have old : r ∈ passed s := by
        by_contra fresh
        have := (gate.opens r s).2 ⟨hk, fresh⟩
        rw [closed] at this
        exact absurd this (by simp)
      have here := (gate.records r s r).2 (.inl old)
      rw [closed] at here
      exact (rest.mem_passed gate r).2 (.inl here)
    · exact ih r hr hk
  | @enter id ids below ys s s₁ s₂ s₃ opened inner rest _ ihRest =>
    intro r hr hk
    rcases List.mem_cons.1 hr with rfl | hr
    · have here := (gate.records r s r).2 (.inr ⟨rfl, by rw [opened]⟩)
      rw [opened] at here
      exact (rest.mem_passed gate r).2 (.inl ((inner.mem_passed gate r).2 (.inl here)))
    · exact ihRest r hr hk

/-- **Children first.**  A run yields every node behind its children. -/
theorem children_first (gate : Gate ask keep passed) (h : Visits p ask ids s ys s') :
    ChildrenFirst p keep (passed s) ys := by
  induction h with
  | done s => trivial
  | @skip id ids ys s s₁ s₂ closed _ ih =>
    refine ih.mono fun n _ c _ hc => ?_
    have here := gate.records id s c
    rw [closed] at here
    simpa using here.1 hc
  | @enter id ids below ys s s₁ s₂ s₃ opened inner rest ihInner ihRest =>
    have here : ∀ c, c ∈ passed s₁ ↔ c ∈ passed s ∨ c = id := fun c => by
      have := gate.records id s c
      rw [opened] at this
      simpa using this
    have later : ∀ c, c ∈ passed s₂ → c ∈ passed s ∨ c = id ∨ c ∈ below := fun c hc => by
      rw [inner.mem_passed gate c, here c] at hc
      grind
    rw [childrenFirst_append, ChildrenFirst]
    refine ⟨?_, ?_, ?_⟩
    · -- the entered node is no child of a node below it: those are smaller
      refine ihInner.mono fun n hn c hc known => ?_
      obtain ⟨-, r, hr, path⟩ := inner.sound gate n hn
      have entered : p.Child id r := hr
      rcases (here c).1 known with old | rfl
      · exact old
      · grind
    · intro c hc hk
      rcases later c (inner.roots_passed gate c hc hk) with old | rfl | hc
      · exact List.mem_append_right _ old
      · grind
      · exact List.mem_append_left _ hc
    · refine ihRest.mono fun n _ c _ known => ?_
      simp only [List.mem_cons, List.mem_append]
      have := later c known
      grind

/-- **Completeness.**  A run that starts with nothing let through yields every node on a path of
`keep` from a pending node. -/
theorem mem_iff (gate : Gate ask keep passed) (h : Visits p ask ids s ys s')
    (fresh : passed s = []) (c : Nat) :
    c ∈ ys ↔ keep c = true ∧ ∃ r ∈ ids, p.ReachesBy (keep ·) r c := by
  have yielded : ∀ c, c ∈ passed s' ↔ c ∈ ys := fun c => by
    rw [h.mem_passed gate c, fresh]
    simp
  refine ⟨h.sound gate c, ?_⟩
  rintro ⟨hk, r, hr, path⟩
  induction path with
  | refl => exact (yielded r).1 (h.roots_passed gate r hr hk)
  | @tail b c _ step ih =>
    have hb : b ∈ ys := ih step.1
    have known := (h.children_first gate).child_mem hb step.2 hk
    simpa [fresh] using known

/-- **What has been asked about.**  If the memory recalls every question, then by the end it recalls
the pending nodes and the children of the nodes that were yielded. -/
theorem mem_asked (asked : σ → List Nat)
    (recalls : ∀ id s c, c ∈ asked (ask id s).2 ↔ c ∈ asked s ∨ c = id)
    (h : Visits p ask ids s ys s') (c : Nat) :
    c ∈ asked s' ↔ c ∈ asked s ∨ c ∈ ids ∨ ∃ n ∈ ys, p.Child n c := by
  induction h with
  | done s => simp
  | @skip id ids ys s s₁ s₂ closed _ ih =>
    have here := recalls id s c
    rw [closed] at here
    rw [ih, here, List.mem_cons]
    grind
  | @enter id ids below ys s s₁ s₂ s₃ opened _ _ ihInner ihRest =>
    have here := recalls id s c
    rw [opened] at here
    rw [ihRest, ihInner, here]
    simp only [List.mem_append, List.mem_cons, or_and_right, exists_or, exists_eq_left]
    rw [show c ∈ Walk.childList p id ↔ p.Child id c from Iff.rfl]
    grind

end Visits

/-! ### The nodes that roots reach -/

namespace Pool

variable {p : Pool} {roots : List Nat}

theorem visits_reachable (p : Pool) (roots : List Nat) :
    Visits p askOnce roots [] (p.reachable roots) (p.walkAll askOnce roots []).2 :=
  visits_iff.2 rfl

theorem mem_reachable {c : Nat} : c ∈ p.reachable roots ↔ ∃ r ∈ roots, p.Reaches r c := by
  rw [(visits_reachable p roots).mem_iff askOnce_gate rfl]
  constructor
  · rintro ⟨-, r, hr, path⟩
    exact ⟨r, hr, path.reaches⟩
  · rintro ⟨r, hr, path⟩
    exact ⟨rfl, r, hr, reachesBy_of_forall (fun _ => rfl) path⟩

theorem nodup_reachable (p : Pool) (roots : List Nat) : (p.reachable roots).Nodup :=
  ((visits_reachable p roots).nodup askOnce_gate).1

theorem childrenFirst_reachable (p : Pool) (roots : List Nat) :
    ChildrenFirst p (fun _ => true) [] (p.reachable roots) :=
  (visits_reachable p roots).children_first askOnce_gate

end Pool

end ShaderDag
