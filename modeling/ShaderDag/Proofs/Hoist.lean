import ShaderDag.Proofs.Inputs
import ShaderDag.Proofs.Naming
import ShaderDag.Proofs.Occurrence

/-!
# Stage bodies

A stage names its inputs first, then defines locals, then assigns.  A term of a node mentions only nodes
that have a name by then, and stops there.

* `Pool.Covers` — every input that a stage reads has a name;
* `Pool.TermClosed.induction` — what holds of names, and of operations on terms of children, holds of the
  term of every node of a closed set, and there is one; `Pool.term_induction` is the case of a stage, and
  `Pool.Covers.term_holds` applies it to a term that is known;
* `Hoists` — the definitions of locals, one after the other; `Pool.Defines` — one of them on its own;
* `Pool.StageBody` — definitions, then assignments;
* `Pool.exists_stageBody` — a stage whose inputs have names always gets its body.
-/

namespace ShaderDag

/-- The term of an operation whose children are terms.  Inputs are written by name instead, so what
stands here for them is never used. -/
def Term.ofNode (kind : Kind) : Node Term → Term
  | .operator op lhs rhs => .operator op lhs rhs
  | .call function args => .apply (.function function) args
  | .construct args => .apply (.constructor kind) args
  | .literal value => .literal value
  | .varying inner => inner
  | .attribute text | .uniform text => .name text

namespace Pool

variable {p : Pool} {names names' : Binder} {roots : List Nat} {id : Nat} {name : String} {e : Entry}

/-! ### Terms of nodes -/

theorem term_bound (h : names.nameOf? id = some name) : p.term names id = .ok (.name name) := by
  rw [term, h]

/-- An unbound operation is written with the terms of its children. -/
theorem term_unbound {m : Node (Nat × Term)} (free : names.nameOf? id = none)
    (he : p.entry? id = some e) (below : ∀ c ∈ e.node.children, c < id)
    (operation : e.node.isInput = false) (same : e.node = m.map (·.1))
    (written : ∀ x ∈ m.children, p.term names x.1 = .ok x.2) :
    p.term names id = .ok (.ofNode e.kind (m.map (·.2))) := by
  obtain ⟨n, hn, shape⟩ := exists_node he below
  rw [same] at shape operation
  have kind : p.kind id = e.kind := kind_eq he
  have arguments : ∀ {args : List (Fin id)} {args' : List (Nat × Term)},
      args.map Fin.val = args'.map (·.1) → (∀ x ∈ args', p.term names x.1 = .ok x.2) →
      args.mapM (fun (a : Fin id) => p.term names a.val) = .ok (args'.map (·.2)) := by
    intro args args' hargs all
    have run := mapM_map_ok all
    rw [← hargs, List.mapM_map] at run
    exact run
  rw [term, free]
  simp only [hn]
  -- both sides have the same operation, so only the cases on the diagonal remain
  cases n with
  | operator op l r =>
    cases m with
    | operator op' l' r' =>
      simp only [Node.map, Node.operator.injEq] at shape
      obtain ⟨rfl, hl, hr⟩ := shape
      simp only [hl, hr, written l' (by simp [Node.children]), written r' (by simp [Node.children])]
      rfl
    | _ => simp [Node.map] at shape
  | call f args =>
    cases m with
    | call f' args' =>
      simp only [Node.map, Node.call.injEq] at shape
      obtain ⟨rfl, hargs⟩ := shape
      simp only [arguments hargs written]
      rfl
    | _ => simp [Node.map] at shape
  | construct args =>
    cases m with
    | construct args' =>
      simp only [Node.map, Node.construct.injEq] at shape
      simp only [arguments shape written, kind]
      rfl
    | _ => simp [Node.map] at shape
  | literal value =>
    cases m with
    | literal value' =>
      simp only [Node.map, Node.literal.injEq] at shape
      rw [shape]
      rfl
    | _ => simp [Node.map] at shape
  | _ =>
    rw [← shape] at operation
    simp [Node.map, Node.isInput] at operation

/-- The nodes of a stage are there, and its inputs have names. -/
structure Covers (p : Pool) (names : Binder) (roots : List Nat) : Prop where
  present : ∀ r ∈ roots, r < p.size
  inputs : ∀ id, p.InStage roots id → p.isInput id = true → ∃ name, names.nameOf? id = some name

theorem Covers.lt_size (covers : p.Covers names roots) (h : p.InStage roots id) : id < p.size := by
  obtain ⟨r, hr, path⟩ := h
  exact path.reaches.lt_size (covers.present r hr)

theorem Covers.mono (covers : p.Covers names roots)
    (keeps : ∀ id name, names.nameOf? id = some name → names'.nameOf? id = some name) :
    p.Covers names' roots where
  present := covers.present
  inputs id mem input := by
    obtain ⟨name, hn⟩ := covers.inputs id mem input
    exact ⟨name, keeps id name hn⟩

/-- Nodes among which the terms of all of them are found: an unbound one is an operation on others. -/
structure TermClosed (p : Pool) (names : Binder) (reached : Nat → Prop) : Prop where
  present : ∀ id, reached id → id < p.size
  operation : ∀ id, reached id → names.nameOf? id = none → p.isInput id = false
  child : ∀ id c, reached id → names.nameOf? id = none → p.Child id c → reached c

/-- **Induction over terms.**  Every node of a closed set has a term.  It is a name, or it is made of the
terms of the children; the induction is on the number of the node. -/
theorem TermClosed.induction {reached : Nat → Prop} {motive : Nat → Term → Prop}
    (closed : p.TermClosed names reached) (wf : p.WellFormed)
    (named : ∀ id name, reached id → names.nameOf? id = some name → motive id (.name name))
    (made : ∀ id e (m : Node (Nat × Term)), reached id → p.entry? id = some e → e.node.isInput = false →
      names.nameOf? id = none → e.node = m.map (·.1) →
      (∀ x ∈ m.children, reached x.1 ∧ p.term names x.1 = .ok x.2 ∧ motive x.1 x.2) →
      motive id (.ofNode e.kind (m.map (·.2)))) :
    ∀ id, reached id → ∃ t, p.term names id = .ok t ∧ motive id t := by
  intro id
  induction id using Nat.strongRecOn with
  | ind id ih =>
    intro mem
    cases hn : names.nameOf? id with
    | some name => exact ⟨.name name, term_bound hn, named id name mem hn⟩
    | none =>
      obtain ⟨e, he⟩ := exists_entry (closed.present id mem)
      have below := wf.descending id e he
      obtain ⟨n, node, shape⟩ := exists_node he below
      have operation : e.node.isInput = false := by
        have inner := closed.operation id mem hn
        simpa [← shape, isInput, node] using inner
      have children : ∀ c ∈ e.node.children, ∃ x : Nat × Term, x.1 = c ∧ reached c ∧
          p.term names c = .ok x.2 ∧ motive c x.2 := by
        intro c hc
        have step : p.Child id c := by rwa [Child, wf.childList_eq he]
        have next := closed.child id c mem hn step
        obtain ⟨t, ht, holds⟩ := ih c (below c hc) next
        exact ⟨(c, t), rfl, next, ht, holds⟩
      obtain ⟨m, same, all⟩ := Node.exists_map_eq children
      have written : ∀ x ∈ m.children, reached x.1 ∧ p.term names x.1 = .ok x.2 ∧ motive x.1 x.2 := all
      exact ⟨_, term_unbound hn he below operation same fun x hx => (written x hx).2.1,
        made id e m mem he operation hn same written⟩

theorem Covers.termClosed (covers : p.Covers names roots) : p.TermClosed names (p.InStage roots) := by
  have operation : ∀ id, p.InStage roots id → names.nameOf? id = none → p.isInput id = false := by
    intro id mem free
    rw [Bool.eq_false_iff]
    intro input
    obtain ⟨name, bound⟩ := covers.inputs id mem input
    rw [free] at bound
    exact absurd bound (by simp)
  exact ⟨fun id mem => covers.lt_size mem, operation,
    fun id c mem free step => mem.child (operation id mem free) step⟩

/-- The nodes of a stage have terms, by the same induction. -/
theorem term_induction {motive : Nat → Term → Prop} (wf : p.WellFormed) (covers : p.Covers names roots)
    (named : ∀ id name, p.InStage roots id → names.nameOf? id = some name → motive id (.name name))
    (made : ∀ id e (m : Node (Nat × Term)), p.entry? id = some e → e.node.isInput = false →
      names.nameOf? id = none → e.node = m.map (·.1) →
      (∀ x ∈ m.children, p.InStage roots x.1 ∧ p.term names x.1 = .ok x.2 ∧ motive x.1 x.2) →
      motive id (.ofNode e.kind (m.map (·.2)))) :
    ∀ id, p.InStage roots id → ∃ t, p.term names id = .ok t ∧ motive id t :=
  covers.termClosed.induction wf named fun id e m _ => made id e m

/-- What holds by that induction holds of the term that is written for a node. -/
theorem Covers.term_holds {motive : Nat → Term → Prop} {t : Term} (wf : p.WellFormed)
    (covers : p.Covers names roots)
    (named : ∀ id name, p.InStage roots id → names.nameOf? id = some name → motive id (.name name))
    (made : ∀ id e (m : Node (Nat × Term)), p.entry? id = some e → e.node.isInput = false →
      names.nameOf? id = none → e.node = m.map (·.1) →
      (∀ x ∈ m.children, p.InStage roots x.1 ∧ p.term names x.1 = .ok x.2 ∧ motive x.1 x.2) →
      motive id (.ofNode e.kind (m.map (·.2))))
    (mem : p.InStage roots id) (written : p.term names id = .ok t) : motive id t := by
  obtain ⟨t', written', holds⟩ := term_induction wf covers named made id mem
  rw [written] at written'
  cases written'
  exact holds

theorem Covers.exists_term (wf : p.WellFormed) (covers : p.Covers names roots)
    (h : p.InStage roots id) : ∃ t, p.term names id = .ok t := by
  obtain ⟨t, ht, -⟩ := term_induction (motive := fun _ _ => True) wf covers (fun _ _ _ _ => trivial)
    (fun _ _ _ _ _ _ _ _ => trivial) id h
  exact ⟨t, ht⟩

end Pool

/-! ### Definitions of locals -/

namespace Naming

variable {names names' : Binder}

theorem run_term {p : Pool} {id : Nat} {t : Term} (h : p.term names id = .ok t) :
    term p id names = .ok t names := by
  rw [term, bind_ok get_ok, h]
  rfl

theorem run_bindName {id : Nat} {name : String} (h : names.bind id name = .ok names') :
    bind id name names = .ok () names' := by
  rw [bind_eq, inPlace_eq_ok_iff, h]

theorem run_uniqueName {base name : String} (fresh : names.uniqueName base = (name, names')) :
    uniqueName base names = .ok name names' := by
  rw [uniqueName, modifyGet_ok, fresh]

/-- A node with a term gets a local. -/
theorem run_define {p : Pool} {names₁ : Binder} {id : Nat} {name : String} {value : Term}
    (fresh : names.uniqueName (p.kind id).name = (name, names₁)) (written : p.term names₁ id = .ok value)
    (bound : names₁.bind id name = .ok names') :
    define p id names = .ok (.define (p.kind id) name value) names' := by
  rw [define, bind_ok (run_uniqueName fresh), bind_ok (run_term written), bind_ok (run_bindName bound)]
  rfl

end Naming

/-- `Hoists p names ids defs names'`: defining a local for each of the nodes `ids`, in order, gives the
definitions `defs` and leads from the binder `names` to `names'`. -/
inductive Hoists (p : Pool) : Binder → List Nat → List Statement → Binder → Prop where
  | done (names : Binder) : Hoists p names [] [] names
  | define {names names₁ names' : Binder} {id : Nat} {ids : List Nat} {name : String} {value : Term}
      {defs : List Statement} (fresh : names.uniqueName (p.kind id).name = (name, names₁))
      (written : p.term names₁ id = .ok value)
      (bound : names₁.bind id name = .ok (names₁.withName id name))
      (rest : Hoists p (names₁.withName id name) ids defs names') :
      Hoists p names (id :: ids) (.define (p.kind id) name value :: defs) names'

/-- Every node with a name keeps it. -/
def Binder.KeptBy (names names' : Binder) : Prop :=
  ∀ id name, names.nameOf? id = some name → names'.nameOf? id = some name

/-- A statement defines a local for a node, with names that were given between two moments. -/
def Pool.Defines (p : Pool) (names names' : Binder) (id : Nat) (statement : Statement) : Prop :=
  ∃ between name value, statement = .define (p.kind id) name value ∧ p.term between id = .ok value ∧
    between.nameOf? id = none ∧ names.KeptBy between ∧ between.KeptBy names'

namespace Hoists

variable {p : Pool} {names names' : Binder} {ids roots : List Nat} {defs : List Statement} {id : Nat}
  {name : String}

theorem run_eq (h : Hoists p names ids defs names') :
    (ids.mapM (Naming.define p)) names = .ok defs names' := by
  induction h with
  | done names => rfl
  | @define names names₁ names' id ids name value defs fresh written bound _ ih =>
    rw [List.mapM_cons, bind_ok (Naming.run_define fresh written bound), bind_ok ih]
    rfl

/-- Before a local is defined, its node has no name and the name is not in use; afterwards the node has
that name, and nothing else has changed. -/
theorem define_spec {names₁ : Binder} {base : String} (fresh : names.uniqueName base = (name, names₁))
    (bound : names₁.bind id name = .ok (names₁.withName id name)) :
    names.nameOf? id = none ∧ name ∉ names.used ∧ (∀ c, names₁.nameOf? c = names.nameOf? c) ∧
      ∀ c, (names₁.withName id name).nameOf? c = if c = id then some name else names.nameOf? c := by
  obtain ⟨unused, -, same⟩ := Binder.uniqueName_eq fresh
  have lookup : ∀ c, names₁.nameOf? c = names.nameOf? c := fun c => by
    rw [Binder.nameOf?, Binder.nameOf?, same]
  obtain ⟨-, unbound, -, -⟩ := Binder.bind_eq_ok_iff.1 bound
  exact ⟨lookup id ▸ unbound, unused, lookup, Binder.nameOf?_define fresh⟩

theorem sound_define {names₁ : Binder} {base : String} (sound : names.Sound)
    (fresh : names.uniqueName base = (name, names₁))
    (bound : names₁.bind id name = .ok (names₁.withName id name)) : (names₁.withName id name).Sound := by
  have next : names₁.Sound := by
    have := sound.uniqueName base
    rwa [fresh] at this
  exact next.bind bound

theorem covers_define {names₁ : Binder} {base : String} (covers : p.Covers names roots)
    (fresh : names.uniqueName base = (name, names₁))
    (bound : names₁.bind id name = .ok (names₁.withName id name)) :
    p.Covers names₁ roots ∧ p.Covers (names₁.withName id name) roots := by
  obtain ⟨unbound, -, lookup, after⟩ := define_spec fresh bound
  refine ⟨covers.mono fun c text hc => by rw [lookup, hc], covers.mono fun c text hc => ?_⟩
  have other : c ≠ id := by
    rintro rfl
    rw [unbound] at hc
    exact absurd hc (by simp)
  rw [after, if_neg other, hc]

theorem sound (h : Hoists p names ids defs names') (sound : names.Sound) : names'.Sound := by
  induction h with
  | done names => exact sound
  | define fresh _ bound _ ih => exact ih (sound_define sound fresh bound)

/-- A node keeps its name. -/
theorem nameOf?_mono (h : Hoists p names ids defs names') (hn : names.nameOf? id = some name) :
    names'.nameOf? id = some name := by
  induction h with
  | done names => exact hn
  | @define names names₁ names' n ids text value defs fresh written bound _ ih =>
    obtain ⟨unbound, -, -, after⟩ := define_spec fresh bound
    have other : id ≠ n := by
      rintro rfl
      rw [hn] at unbound
      exact absurd unbound (by simp)
    refine ih ?_
    rw [after, if_neg other, hn]

/-- Afterwards the nodes with a name are those that had one and those that got a local. -/
theorem isBound (h : Hoists p names ids defs names') (c : Nat) :
    names'.isBound c = (names.isBound c || ids.contains c) := by
  induction h with
  | done names => simp
  | @define names names₁ names' id ids name value defs fresh written bound _ ih =>
    obtain ⟨-, -, -, after⟩ := define_spec fresh bound
    rw [ih, Binder.isBound, Binder.isBound, after, List.contains_cons]
    by_cases same : c = id
    · simp [same]
    · rw [if_neg same, beq_false_of_ne same, Bool.false_or]

/-- Each definition is written for its node, at a moment when the node had no name and all earlier names
had been given. -/
theorem defines (h : Hoists p names ids defs names') :
    List.Forall₂ (p.Defines names names') ids defs := by
  have kept : ∀ {names ids defs names'}, Hoists p names ids defs names' → names.KeptBy names' :=
    fun h _ _ hn => h.nameOf?_mono hn
  induction h with
  | done names => exact .nil
  | @define names names₁ names' id ids name value defs fresh written bound rest ih =>
    obtain ⟨unbound, -, lookup, after⟩ := define_spec fresh bound
    have before : names.KeptBy names₁ := fun c text hn => (lookup c).trans hn
    have step : names.KeptBy (names₁.withName id name) := by
      intro c text hn
      have other : c ≠ id := by
        rintro rfl
        rw [unbound] at hn
        cases hn
      rw [after, if_neg other, hn]
    refine .cons ⟨names₁, name, value, rfl, written, (lookup id).trans unbound, before, ?_⟩ (ih.imp ?_)
    · intro c text hn
      exact kept (.define fresh written bound rest) c text ((lookup c).symm.trans hn)
    · rintro c statement ⟨between, text, term, rfl, hterm, free, first, last⟩
      exact ⟨between, text, term, rfl, hterm, free, fun d s hn => first d s (step d s hn), last⟩

/-- Other nodes have no name still. -/
theorem unnamed_define {names₁ : Binder} {base : String} (fresh : names.uniqueName base = (name, names₁))
    (new : id ∉ ids) (free : ∀ c ∈ ids, names.nameOf? c = none) :
    ∀ c ∈ ids, (names₁.withName id name).nameOf? c = none := by
  intro c hc
  have other : c ≠ id := fun h => new (h ▸ hc)
  rw [Binder.nameOf?_define fresh, if_neg other, free c hc]

/-- **Locals can always be defined.**  A free name made from the name of a kind may be declared, and the
node has no name yet. -/
theorem exists_of_covers (wf : p.WellFormed) (covers : p.Covers names roots)
    (inStage : ∀ id ∈ ids, p.InStage roots id) (free : ∀ id ∈ ids, names.nameOf? id = none)
    (distinct : ids.Nodup) : ∃ defs names', Hoists p names ids defs names' := by
  induction ids generalizing names with
  | nil => exact ⟨[], names, .done names⟩
  | cons id ids ih =>
    rw [List.nodup_cons] at distinct
    rw [List.forall_mem_cons] at inStage free
    obtain ⟨name, names₁, fresh⟩ : ∃ name names₁, names.uniqueName (p.kind id).name = (name, names₁) :=
      ⟨_, _, rfl⟩
    have bound := Binder.bind_uniqueName fresh free.1
    obtain ⟨covers₁, covers₂⟩ := covers_define covers fresh bound
    obtain ⟨value, written⟩ := covers₁.exists_term wf inStage.1
    obtain ⟨defs, names', rest⟩ := ih covers₂ inStage.2 (unnamed_define fresh distinct.1 free.2) distinct.2
    exact ⟨_, _, .define fresh written bound rest⟩

end Hoists

/-! ### Bodies of stages -/

namespace Pool

variable {p : Pool} {names : Binder} {assignments : List (String × Nat)} {body : List Statement}

/-- The nodes that get a local in a stage. -/
def hoisted (p : Pool) (names : Binder) (assignments : List (String × Nat)) : List Nat :=
  (Occurrences.ofRoots p (fun id => !names.isBound id) (assignments.map (·.2))).shared

/-- A statement assigns the term of a node. -/
def Assigns (p : Pool) (names : Binder) (assignment : String × Nat) (statement : Statement) : Prop :=
  ∃ value, p.term names assignment.2 = .ok value ∧ statement = .assign assignment.1 value

/-- The body of a stage: definitions of locals, then one assignment after the other. -/
structure StageBody (p : Pool) (names : Binder) (assignments : List (String × Nat))
    (body defs outputs : List Statement) (names' : Binder) : Prop where
  body_eq : body = defs ++ outputs
  defs : Hoists p names (p.hoisted names assignments) defs names'
  outputs : List.Forall₂ (p.Assigns names') assignments outputs

theorem mapM_assign {names' : Binder} {outputs : List Statement}
    (h : List.Forall₂ (p.Assigns names') assignments outputs) :
    (assignments.mapM fun (name, id) => do
      return Statement.assign name (← Naming.term p id) : Naming (List Statement)) names' =
      .ok outputs names' := by
  induction h with
  | nil => rfl
  | @cons assignment statement assignments outputs first _ ih =>
    obtain ⟨text, id⟩ := assignment
    obtain ⟨value, written, rfl⟩ := first
    have assigned : (do return Statement.assign text (← Naming.term p id) : Naming Statement) names' =
        .ok (.assign text value) names' := by
      rw [bind_ok (Naming.run_term written)]
      rfl
    rw [List.mapM_cons, bind_ok assigned, bind_ok ih]
    rfl

theorem StageBody.stageBody_eq {defs outputs : List Statement} {names' : Binder}
    (h : p.StageBody names assignments body defs outputs names') :
    p.stageBody names assignments = .ok body := by
  have hoists : Naming.hoist p (assignments.map (·.2)) names = .ok defs names' := h.defs.run_eq
  rw [stageBody, Naming.runWith, EStateM.run, bind_ok hoists,
    bind_ok (mapM_assign h.outputs), h.body_eq]
  rfl

/-- What roots reach past unbound nodes belongs to the stage: an unbound node on the way is no input,
for those have names. -/
theorem Covers.inStage {roots : List Nat} {r id : Nat} (covers : p.Covers names roots) (hr : r ∈ roots)
    (path : p.ReachesBy (fun c => !names.isBound c) r id) : p.InStage roots id := by
  induction path with
  | refl => exact inStage_root hr
  | @tail a b _ step ih =>
    have unbound : names.isBound a = false := by simpa using step.1
    refine ih.child ?_ step.2
    rw [Bool.eq_false_iff]
    intro input
    obtain ⟨name, hn⟩ := covers.inputs a ih input
    rw [Binder.isBound, hn] at unbound
    exact absurd unbound (by simp)

/-- What gets a local belongs to the stage and has no name before. -/
theorem Covers.hoisted {id : Nat} (covers : p.Covers names (assignments.map (·.2)))
    (h : id ∈ p.hoisted names assignments) :
    p.InStage (assignments.map (·.2)) id ∧ names.nameOf? id = none := by
  obtain ⟨free, r, hr, path⟩ := Occurrences.shared_sound h
  exact ⟨covers.inStage hr path, by simpa [Binder.isBound] using free⟩

/-- **Every stage gets its body.** -/
theorem exists_stageBody (wf : p.WellFormed) (covers : p.Covers names (assignments.map (·.2))) :
    ∃ body defs outputs names', p.StageBody names assignments body defs outputs names' := by
  obtain ⟨defs, names', hoists⟩ := Hoists.exists_of_covers wf covers
    (fun id mem => (covers.hoisted mem).1) (fun id mem => (covers.hoisted mem).2)
    (Occurrences.nodup_shared p _ _)
  have covers' := covers.mono fun id name hn => hoists.nameOf?_mono hn
  have assigned : ∀ a ∈ assignments, ∃ statement, p.Assigns names' a statement := by
    intro a ha
    obtain ⟨value, written⟩ := covers'.exists_term wf (inStage_root (List.mem_map_of_mem ha))
    exact ⟨.assign a.1 value, value, written, rfl⟩
  obtain ⟨outputs, houtputs⟩ := exists_forall₂ assigned
  exact ⟨defs ++ outputs, defs, outputs, names', rfl, hoists, houtputs⟩

end Pool

end ShaderDag
