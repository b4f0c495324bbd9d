import ShaderDag.Proofs.FullWalk
import ShaderDag.Proofs.Session

/-!
# Walks one node at a time

A walk can be taken one node at a time, with a stack of the nodes that are not yet complete.  At every
moment the stack stands for what the recursion would still do, so each call of `Walk.next` takes the head
off the sequence that is left, and collecting a walk gives the recursion's sequence, questions and memory.

* `Tree.size` — the number of places of a tree;
* `Walk.unfinished`, `Walk.rest` — what a stack and a walk still yield, as a recursion;
* `Walk.advance_cases`, `Walk.next_cases` — one step: the walk has ended, or it yields the head of what is
  left;
* `Walk.collect` — all calls of `Walk.next` up to the first that gives nothing;
* `Ask.logged` — a question that also writes down what it was asked and what it answered;
* `Walk.Iterates` — everything that a walk one node at a time shares with the recursion;
* `Session.Reachable.walk_iterates` — every walk in a pool of a reachable session does.
-/

namespace ShaderDag

variable {σ τ : Type}

/-! ### Sizes of trees -/

namespace Tree

theorem sizeOf_child {kind : Kind} {operation : Node Tree} {t : Tree} (h : t ∈ operation.children) :
    sizeOf t < sizeOf (node kind operation) := by
  have inner : sizeOf t < sizeOf operation := by
    match operation, h with
    | .operator op lhs rhs, h =>
      simp only [Node.children, List.mem_cons, List.not_mem_nil, or_false] at h
      rcases h with rfl | rfl <;> simp only [Node.operator.sizeOf_spec] <;> omega
    | .call function args, h =>
      have := List.sizeOf_lt_of_mem (show t ∈ args from h)
      simp only [Node.call.sizeOf_spec]
      omega
    | .construct args, h =>
      have := List.sizeOf_lt_of_mem (show t ∈ args from h)
      simp only [Node.construct.sizeOf_spec]
      omega
    | .varying inner, h =>
      rw [Node.children, List.mem_singleton] at h
      simp only [h, Node.varying.sizeOf_spec]
      omega
  simp only [node.sizeOf_spec]
  omega

/-- The number of places of a tree: every node counts at each place where it stands. -/
def size : Tree → Nat
  | .node _ operation => (operation.children.attach.map fun t => t.val.size).sum + 1
decreasing_by exact sizeOf_child t.property

@[simp] theorem size_node (kind : Kind) (operation : Node Tree) :
    (node kind operation).size = (operation.children.map size).sum + 1 := by
  rw [size, List.attach_map_val]

end Tree

/-! ### Walks of everything -/

/-- A walk that lets everything through yields the nodes that it starts from, and every node behind all of
its children.  What was known before does not matter, since each node brings its own children. -/
theorem Visits.childrenFirst_all {p : Pool} {ids ys : List Nat} {s s' : σ}
    (h : Visits p (askIf fun _ => true) ids s ys s') :
    (∀ id ∈ ids, id ∈ ys) ∧ ∀ known, ChildrenFirst p (fun _ => true) known ys := by
  induction h with
  | done s => exact ⟨by simp, fun _ => trivial⟩
  | skip closed _ _ => cases closed
  | @enter id ids below ys s s₁ s₂ s₃ _ _ _ ihInner ihRest =>
    constructor
    · intro i hi
      rcases List.mem_cons.1 hi with rfl | hi
      · simp
      · simp [ihRest.1 i hi]
    · intro known
      rw [childrenFirst_append]
      refine ⟨ihInner.2 known, fun c step _ => ?_, ihRest.2 _⟩
      exact List.mem_append_left known (ihInner.1 c step)

namespace Pool

variable {p : Pool} {root : Nat}

theorem length_fullWalk (p : Pool) (keep : Nat → Bool) (ids : List Nat) :
    (p.fullWalk keep ids).length = (ids.map fun id => (p.fullWalk keep [id]).length).sum := by
  rw [fullWalk_eq_flatMap, List.length_flatMap]

/-- An expression that is written out in full has as many nodes as its tree has places. -/
theorem length_fullWalk_tree (p : Pool) :
    ∀ {id : Nat} {t : Tree}, p.tree? id = some t → (p.fullWalk (fun _ => true) [id]).length = t.size := by
  intro id
  induction id using Nat.strongRecOn with
  | ind id ih =>
    intro t ht
    obtain ⟨kind, operation⟩ := t
    obtain ⟨e, he, below, trees, -⟩ := tree?_eq_some_iff.1 ht
    obtain ⟨n, hn, same⟩ := exists_node he below
    have children : Walk.childList p id = e.node.children := by rw [childList_of_node hn, same]
    have subtrees : e.node.children.map p.tree? = operation.children.map some := by
      simpa using congrArg Node.children trees
    obtain ⟨zs, ids, ts, all⟩ := exists_zip_of_map_eq subtrees
    rw [fullWalk_kept rfl, List.length_append, List.length_singleton, length_fullWalk, children, ids,
      Tree.size_node, ts, List.map_map, List.map_map]
    congr 2
    refine List.map_congr_left fun z hz => ?_
    have small : z.1 < id := below z.1 (ids ▸ List.mem_map_of_mem hz)
    exact ih z.1 small (all z hz)

end Pool

/-! ### Questions that are written down -/

/-- A question that also keeps a log: each node that it is asked about, with the answer. -/
def Ask.logged (ask : Ask σ) : Ask (List (Nat × Bool) × σ) := fun id m =>
  ((ask id m.2).1, (m.1 ++ [(id, (ask id m.2).1)], (ask id m.2).2))

/-- A question with more memory that answers alike leads to the same run. -/
theorem Visits.forget {p : Pool} {ask : Ask σ} {ask' : Ask τ} {ids ys : List Nat} {t t' : τ} (part : τ → σ)
    (alike : ∀ id t, ask id (part t) = ((ask' id t).1, part (ask' id t).2))
    (h : Visits p ask' ids t ys t') : Visits p ask ids (part t) ys (part t') := by
  induction h with
  | done t => exact .done (part t)
  | @skip id ids ys t t₁ t₂ closed _ ih =>
    refine .skip ?_ ih
    rw [alike, closed]
  | @enter id ids below ys t t₁ t₂ t₃ opened _ _ ihInner ihRest =>
    refine .enter ?_ ihInner ihRest
    rw [alike, opened]

@[simp] theorem Pool.walkAll_singleton (p : Pool) (ask : Ask σ) (id : Nat) (s : σ) :
    p.walkAll ask [id] s = p.walk ask id s := by
  rw [walkAll_cons]
  show ((p.walk ask id s).1 ++ [], (p.walk ask id s).2) = p.walk ask id s
  rw [List.append_nil, Prod.mk.eta]

/-- A log does not change a walk. -/
theorem Pool.walk_logged (p : Pool) (ask : Ask σ) (root : Nat) (s : σ) (log : List (Nat × Bool)) :
    p.walk ask root s =
      ((p.walk ask.logged root (log, s)).1, (p.walk ask.logged root (log, s)).2.2) := by
  have run : Visits p ask.logged [root] (log, s) (p.walk ask.logged root (log, s)).1
      (p.walk ask.logged root (log, s)).2 := by
    rw [visits_iff, p.walkAll_singleton, Prod.mk.eta]
  have plain : Visits p ask [root] s (p.walk ask.logged root (log, s)).1
      (p.walk ask.logged root (log, s)).2.2 := run.forget Prod.snd fun id m => rfl
  rw [← p.walkAll_singleton, plain.walkAll_eq]

namespace Walk

variable {p : Pool} {ask : Ask σ} {s : σ}

/-! ### What is left of a walk -/

/-- What an unfinished stack still yields, as a recursion: the pending children of the innermost node are
walked, the node is yielded, and so on outwards. -/
def unfinished (p : Pool) (ask : Ask σ) : List (Nat × List Nat) → StateM σ (List Nat)
  | [] => pure []
  | (id, pending) :: stack => do
    let below ← p.walkAll ask pending
    let above ← unfinished p ask stack
    return below ++ id :: above

/-- What a walk still yields, as a recursion. -/
def rest (p : Pool) (ask : Ask σ) (w : Walk) : StateM σ (List Nat) :=
  if w.started then unfinished p ask w.stack else p.walk ask w.root

/-- The walk from a root that has come to its end. -/
def ended (root : Nat) : Walk := ⟨root, true, []⟩

theorem unfinished_cons (id : Nat) (pending : List Nat) (stack : List (Nat × List Nat)) :
    unfinished p ask ((id, pending) :: stack) s =
      ((p.walkAll ask pending s).1 ++ id :: (unfinished p ask stack (p.walkAll ask pending s).2).1,
        (unfinished p ask stack (p.walkAll ask pending s).2).2) := rfl

/-- A pending child that is let through moves to the top of the stack, and the same is left. -/
theorem unfinished_enter {id c : Nat} {cs : List Nat} {stack : List (Nat × List Nat)}
    (opened : (ask c s).1 = true) :
    unfinished p ask ((id, c :: cs) :: stack) s =
      unfinished p ask ((c, childList p c) :: (id, cs) :: stack) (ask c s).2 := by
  simp only [unfinished_cons, Pool.walkAll_cons, Pool.walk_eq, opened, if_true, List.append_assoc,
    List.cons_append, List.nil_append]

theorem unfinished_skip {id c : Nat} {cs : List Nat} {stack : List (Nat × List Nat)}
    (closed : (ask c s).1 = false) :
    unfinished p ask ((id, c :: cs) :: stack) s = unfinished p ask ((id, cs) :: stack) (ask c s).2 := by
  simp only [unfinished_cons, Pool.walkAll_cons, Pool.walk_eq, closed, Bool.false_eq_true, if_false,
    List.nil_append]

theorem advance_enter {id c : Nat} {cs : List Nat} {stack : List (Nat × List Nat)}
    (opened : (ask c s).1 = true) :
    advance p ask ((id, c :: cs) :: stack) s =
      advance p ask ((c, childList p c) :: (id, cs) :: stack) (ask c s).2 := by
  rw [advance]
  show (if (ask c s).1 = true then _ else _ : StateM σ _) (ask c s).2 = _
  rw [if_pos opened]

theorem advance_skip {id c : Nat} {cs : List Nat} {stack : List (Nat × List Nat)}
    (closed : (ask c s).1 = false) :
    advance p ask ((id, c :: cs) :: stack) s = advance p ask ((id, cs) :: stack) (ask c s).2 := by
  rw [advance]
  show (if (ask c s).1 = true then _ else _ : StateM σ _) (ask c s).2 = _
  rw [if_neg (by simp [closed])]

/-- **One step on a stack.**  Either nothing was left, and the stack is empty; or the head of what was left
is yielded, its tail is left, and there is less work to do. -/
theorem advance_cases (p : Pool) (ask : Ask σ) (stack : List (Nat × List Nat)) : ∀ s,
    (∃ s', advance p ask stack s = ((none, []), s') ∧ unfinished p ask stack s = ([], s')) ∨
    (∃ id stack' s', advance p ask stack s = ((some id, stack'), s') ∧ work p stack' < work p stack ∧
      unfinished p ask stack s =
        (id :: (unfinished p ask stack' s').1, (unfinished p ask stack' s').2)) := by
  induction stack using advance.induct p with
  | case1 =>
    intro s
    exact .inl ⟨s, by rw [advance]; rfl, rfl⟩
  | case2 id stack =>
    intro s
    have less : work p stack < work p ((id, []) :: stack) := by
      simp only [work, pendingCost]
      omega
    exact .inr ⟨id, stack, s, by rw [advance]; rfl, less, rfl⟩
  | case3 id c cs stack ihEnter ihSkip =>
    intro s
    cases answer : (ask c s).1 with
    | true =>
      have less : work p ((c, childList p c) :: (id, cs) :: stack) < work p ((id, c :: cs) :: stack) := by
        have := cost_eq p c
        simp only [work, pendingCost]
        omega
      rw [advance_enter answer, unfinished_enter answer]
      rcases ihEnter (ask c s).2 with stopped | ⟨y, stack', s', run, less', left⟩
      · exact .inl stopped
      · exact .inr ⟨y, stack', s', run, Nat.lt_trans less' less, left⟩
    | false =>
      have less : work p ((id, cs) :: stack) < work p ((id, c :: cs) :: stack) := by
        simp only [work, pendingCost]
        omega
      rw [advance_skip answer, unfinished_skip answer]
      rcases ihSkip (ask c s).2 with stopped | ⟨y, stack', s', run, less', left⟩
      · exact .inl stopped
      · exact .inr ⟨y, stack', s', run, Nat.lt_trans less' less, left⟩

/-- The number of questions and yields that a walk still leads to, at most, apart from the one about its
root. -/
def effort (p : Pool) (w : Walk) : Nat := if w.started then work p w.stack else cost p w.root

/-- What is left of a walk is what is left of the stack that it goes on with. -/
theorem enter_spec (p : Pool) (ask : Ask σ) (w : Walk) (s : σ) :
    rest p ask w s = unfinished p ask (enter p ask w s).1 (enter p ask w s).2 ∧
      work p (enter p ask w s).1 ≤ effort p w := by
  cases started : w.started with
  | true =>
    have kept : enter p ask w s = (w.stack, s) := by
      rw [enter, started]
      rfl
    rw [kept, rest, effort, if_pos started, if_pos started]
    exact ⟨rfl, Nat.le_refl _⟩
  | false =>
    have asked : enter p ask w s =
        (if (ask w.root s).1 = true then [(w.root, childList p w.root)] else [], (ask w.root s).2) := by
      rw [enter, started]
      show (if (ask w.root s).1 = true then pure _ else pure _ : StateM σ _) (ask w.root s).2 = _
      split <;> rfl
    have fresh : ¬w.started = true := by simp [started]
    rw [asked, rest, effort, if_neg fresh, if_neg fresh, Pool.walk_eq]
    split
    · have cost := cost_eq p w.root
      refine ⟨rfl, ?_⟩
      simp only [work]
      omega
    · exact ⟨rfl, Nat.zero_le _⟩

/-- **One step of a walk.**  Either nothing was left, and the walk has ended; or the head of what was left is
yielded, its tail is left, and less effort remains. -/
theorem next_cases (p : Pool) (ask : Ask σ) (w : Walk) (s : σ) :
    (∃ s', next p ask w s = ((none, ended w.root), s') ∧ rest p ask w s = ([], s')) ∨
    (∃ id w' s', next p ask w s = ((some id, w'), s') ∧ w'.root = w.root ∧ effort p w' < effort p w ∧
      rest p ask w s = (id :: (rest p ask w' s').1, (rest p ask w' s').2)) := by
  obtain ⟨left, bound⟩ := enter_spec p ask w s
  have run : next p ask w s =
      (((advance p ask (enter p ask w s).1 (enter p ask w s).2).1.1,
          ⟨w.root, true, (advance p ask (enter p ask w s).1 (enter p ask w s).2).1.2⟩),
        (advance p ask (enter p ask w s).1 (enter p ask w s).2).2) := rfl
  rw [run, left]
  rcases advance_cases p ask (enter p ask w s).1 (enter p ask w s).2 with
    ⟨s', stop, nothing⟩ | ⟨id, stack', s', yield, less, more⟩
  · rw [stop]
    exact .inl ⟨s', rfl, nothing⟩
  · rw [yield]
    refine .inr ⟨id, ⟨w.root, true, stack'⟩, s', rfl, rfl, ?_, more⟩
    show work p stack' < effort p w
    omega

/-! ### Collecting a walk -/

theorem effort_next {w w' : Walk} {s' : σ} {id : Nat} (called : next p ask w s = ((some id, w'), s')) :
    effort p w' < effort p w := by
  rcases next_cases p ask w s with ⟨_, stop, _⟩ | ⟨_, _, _, yield, _, less, _⟩
  · rw [stop] at called
    cases called
  · rw [yield] at called
    cases called
    exact less

/-- All that a walk yields, with the walk and the memory when `next` first gives nothing. -/
def collect (p : Pool) (ask : Ask σ) (w : Walk) (s : σ) : (List Nat × Walk) × σ :=
  match _called : next p ask w s with
  | ((none, w'), s') => (([], w'), s')
  | ((some id, w'), s') =>
    ((id :: (collect p ask w' s').1.1, (collect p ask w' s').1.2), (collect p ask w' s').2)
termination_by effort p w
decreasing_by all_goals exact effort_next _called

/-- Collecting a walk gives what was left of it. -/
theorem collect_eq (p : Pool) (ask : Ask σ) (w : Walk) (s : σ) :
    collect p ask w s = (((rest p ask w s).1, ended w.root), (rest p ask w s).2) := by
  fun_induction collect p ask w s with
  | case1 w s w' s' called =>
    rcases next_cases p ask w s with ⟨_, stop, nothing⟩ | ⟨_, _, _, yield, _⟩
    · rw [stop] at called
      cases called
      rw [nothing]
    · rw [yield] at called
      cases called
  | case2 w s id w' s' called ih =>
    rcases next_cases p ask w s with ⟨_, stop, _⟩ | ⟨_, _, _, yield, root, _, left⟩
    · rw [stop] at called
      cases called
    · rw [yield] at called
      cases called
      rw [ih, left, root]

/-- Taking more nodes than are left takes them all. -/
theorem take_eq_collect (p : Pool) (ask : Ask σ) (count : Nat) :
    ∀ w s, (rest p ask w s).1.length < count → take p ask count w s = collect p ask w s := by
  induction count with
  | zero => exact fun w s enough => absurd enough (Nat.not_lt_zero _)
  | succ count ih =>
    intro w s enough
    rw [collect_eq]
    rcases next_cases p ask w s with ⟨s', stop, nothing⟩ | ⟨id, w', s', yield, root, -, left⟩
    · rw [nothing]
      simp only [take, bind, StateT.bind, stop]
      rfl
    · have fewer : (rest p ask w' s').1.length < count := by
        rw [left, List.length_cons] at enough
        omega
      have tail := ih w' s' fewer
      rw [collect_eq] at tail
      simp only [take, bind, StateT.bind, yield, tail, left, root]
      rfl

/-! ### Calls of `next`, and starting again -/

/-- A walk after some calls of `next`, whatever they gave. -/
def after (p : Pool) (ask : Ask σ) : (calls : Nat) → Walk → StateM σ Walk
  | 0, w => pure w
  | calls + 1, w => do
    let (_, w) ← next p ask w
    after p ask calls w

theorem root_next (p : Pool) (ask : Ask σ) (w : Walk) (s : σ) : (next p ask w s).1.2.root = w.root := rfl

theorem root_after (p : Pool) (ask : Ask σ) (calls : Nat) :
    ∀ w s, (after p ask calls w s).1.root = w.root := by
  induction calls with
  | zero => exact fun w s => rfl
  | succ calls ih =>
    intro w s
    show (after p ask calls (next p ask w s).1.2 (next p ask w s).2).1.root = w.root
    rw [ih, root_next]

theorem next_ended (p : Pool) (ask : Ask σ) (root : Nat) (s : σ) :
    next p ask (ended root) s = ((none, ended root), s) := by
  rcases next_cases p ask (ended root) s with ⟨s', stop, nothing⟩ | ⟨id, w', s', -, -, -, left⟩
  · have same : s = s' := congrArg Prod.snd nothing
    rw [stop, same]
    rfl
  · cases left

theorem after_ended (p : Pool) (ask : Ask σ) (root : Nat) (s : σ) (calls : Nat) :
    after p ask calls (ended root) s = (ended root, s) := by
  induction calls with
  | zero => rfl
  | succ calls ih =>
    show after p ask calls (next p ask (ended root) s).1.2 (next p ask (ended root) s).2 = _
    rw [next_ended, ih]

/-! ### The walk and the recursion -/

/-- What a walk from a root, taken one node at a time, has in common with the recursion. -/
structure Iterates (p : Pool) (root : Nat) : Prop where
  /-- The recursion asks about a node; if the node is let through, its children are walked from left to right
  and the node is yielded. -/
  recursion : ∀ {σ : Type} (ask : Ask σ) (s : σ) (id : Nat) (e : Entry), p.entry? id = some e →
    p.walk ask id s =
      if (ask id s).1 then
        ((p.walkAll ask e.node.children (ask id s).2).1 ++ [id],
          (p.walkAll ask e.node.children (ask id s).2).2)
      else ([], (ask id s).2)
  /-- Collecting ends, with the sequence and the memory of the recursion. -/
  collected : ∀ {σ : Type} (ask : Ask σ) (s : σ),
    collect p ask (start root) s = (((p.walk ask root s).1, ended root), (p.walk ask root s).2)
  /-- Taking more nodes than there are is collecting. -/
  taken : ∀ {σ : Type} (ask : Ask σ) (s : σ) (count : Nat), (p.walk ask root s).1.length < count →
    take p ask count (start root) s = collect p ask (start root) s
  /-- The questions and their answers are the same, one by one; writing them down changes neither run. -/
  asked : ∀ {σ : Type} (ask : Ask σ) (s : σ), ∃ log : List (Nat × Bool),
    collect p ask.logged (start root) ([], s) =
      ((collect p ask (start root) s).1, (log, (collect p ask (start root) s).2)) ∧
    p.walk ask.logged root ([], s) = ((p.walk ask root s).1, (log, (p.walk ask root s).2))
  /-- If everything is let through, every node comes behind all of its children. -/
  childrenFirst : ∀ before id after,
    (collect p (askIf fun _ => true) (start root) ()).1.1 = before ++ id :: after →
    ∃ e, p.entry? id = some e ∧ ∀ c ∈ e.node.children, c ∈ before
  /-- If everything is let through, there are as many nodes as the tree has places. -/
  size : ∃ t, p.tree? root = some t ∧
    (collect p (askIf fun _ => true) (start root) ()).1.1.length = t.size
  /-- After any calls, a walk that starts again under a predicate yields the whole sequence. -/
  restarted : ∀ {σ : Type} (ask : Ask σ) (s : σ) (calls : Nat) (keep : Nat → Bool),
    (collect p (askIf keep) (after p ask calls (start root) s).1.restart ()).1.1 =
      (p.walk (askIf keep) root ()).1
  /-- Once `next` has given nothing, it gives nothing and asks nothing, however often it is called. -/
  exhausted : ∀ {σ : Type} (ask : Ask σ) (w w' : Walk) (s s' : σ), next p ask w s = ((none, w'), s') →
    ∀ (t : σ) (calls : Nat), after p ask calls w' t = (w', t) ∧ next p ask w' t = ((none, w'), t)

theorem collect_start (p : Pool) (ask : Ask σ) (root : Nat) (s : σ) :
    collect p ask (start root) s = (((p.walk ask root s).1, ended root), (p.walk ask root s).2) :=
  collect_eq p ask (start root) s

end Walk

/-- **A walk one node at a time is the recursion.** -/
theorem Pool.WellFormed.iterates {p : Pool} {root : Nat} (wf : p.WellFormed)
    (present : root < p.size) : Walk.Iterates p root := by
  -- with everything let through, the walk writes the expression out in full
  have full : (Walk.collect p (askIf fun _ => true) (Walk.start root) ()).1.1 =
      p.fullWalk (fun _ => true) [root] := by
    rw [Walk.collect_start, fullWalk, List.flatMap_singleton]
  constructor
  case recursion =>
    intro σ ask s id e he
    rw [walk_eq, wf.childList_eq he]
  case collected => exact fun ask s => Walk.collect_start p ask root s
  case taken => exact fun ask s count enough => Walk.take_eq_collect p ask count (Walk.start root) s enough
  case asked =>
    intro σ ask s
    have plain := p.walk_logged ask root s []
    exact ⟨(p.walk ask.logged root ([], s)).2.1, by rw [Walk.collect_start, Walk.collect_start, plain],
      by rw [plain]; rfl⟩
  case childrenFirst =>
    intro before id after split
    rw [full] at split
    have mem : id ∈ p.fullWalk (fun _ => true) [root] := by rw [split]; simp
    obtain ⟨-, r, hr, path⟩ := mem_fullWalk.1 mem
    rw [List.mem_singleton] at hr
    obtain ⟨e, he⟩ := exists_entry (path.reaches.lt_size (hr ▸ present))
    refine ⟨e, he, fun c hc => ?_⟩
    have first := (p.visits_fullWalk (fun _ => true) [root]).childrenFirst_all.2 []
    rw [split, childrenFirst_append] at first
    have step : p.Child id c := by rwa [Child, wf.childList_eq he]
    simpa using first.2.1 c step rfl
  case size =>
    obtain ⟨t, ht⟩ := wf.exists_tree present
    exact ⟨t, ht, by rw [full, p.length_fullWalk_tree ht]⟩
  case restarted =>
    intro σ ask s calls keep
    rw [Walk.restart, Walk.root_after]
    show (Walk.collect p (askIf keep) (Walk.start root) ()).1.1 = _
    rw [Walk.collect_start]
  case exhausted =>
    intro σ ask w w' s s' stopped t calls
    rcases Walk.next_cases p ask w s with ⟨_, stop, -⟩ | ⟨_, _, _, yield, -⟩
    · rw [stop] at stopped
      cases stopped
      exact ⟨Walk.after_ended p ask w.root t calls, Walk.next_ended p ask w.root t⟩
    · rw [yield] at stopped
      cases stopped

namespace Session

variable {s : Session} {root : Nat}

/-- **Walks are iterated faithfully.**  In every pool of a reachable session and from every node, the walk one
node at a time ends with the sequence, the questions and the memory of the recursion, whatever the question
remembers; it lists children before parents and every place of the tree if nothing is held back; it can be
started again at any moment; and it stays at its end. -/
theorem Reachable.walk_iterates (reachable : s.Reachable) (pool : Nat)
    (present : root < (s.workspace.pool pool).size) : Walk.Iterates (s.workspace.pool pool) root :=
  (reachable.valid.wellFormed pool).iterates present

/-- In the example session the product is walked one node at a time: its tree has eleven places, and after
three calls the walk can be started again for a predicate that holds the interpolated node back. -/
theorem sample_walk_iterates :
    3 < (Pool.sample .empty).size ∧
      (∃ t, (Pool.sample .empty).tree? 3 = some t ∧
        (Walk.collect (Pool.sample .empty) (askIf fun _ => true) (Walk.start 3) ()).1.1.length = t.size) ∧
      (Walk.collect (Pool.sample .empty) (askIf (· != 1))
        (Walk.after (Pool.sample .empty) askOnce 3 (Walk.start 3) []).1.restart ()).1.1 = [2, 2, 3] := by
  have present : 3 < (Pool.sample .empty).size := by decide
  have iterates : Walk.Iterates (Pool.sample .empty) 3 := reachable_sample_empty.walk_iterates 0 present
  refine ⟨present, iterates.size, ?_⟩
  rw [iterates.restarted]
  decide +kernel

end Session

end ShaderDag
